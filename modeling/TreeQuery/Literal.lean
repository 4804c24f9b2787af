/-!
# String literals

A text between two equal quotes. A backslash in front of the quote keeps the literal open; every
other backslash stands for itself, so a value never ends in one. `body?` cuts a literal off a text,
`decode` gives its value, and `encode` writes a value.
-/

namespace TreeQuery.Literal

def isQuote (c : Char) : Bool :=
  c == '"' || c == '\''

/-- What stands between an opening quote and the end of its literal, the closing quote included, and
what follows. `guarded` says that the character before is a backslash. There is no result if the
literal is never closed. -/
def body? (quote : Char) (guarded : Bool) : List Char → Option (List Char × List Char)
  | [] => none
  | c :: cs =>
    if c = quote && !guarded then some ([c], cs)
    else (body? quote (c == '\\') cs).map fun (b, rest) => (c :: b, rest)

theorem append_of_body? {quote : Char} {guarded : Bool} {cs b rest : List Char}
    (h : body? quote guarded cs = some (b, rest)) : b ++ rest = cs := by
  induction cs generalizing guarded b with
  | nil => simp [body?] at h
  | cons c cs ih =>
    rw [body?] at h
    split at h
    · cases h
      rfl
    · obtain ⟨⟨b', r⟩, hb, he⟩ := Option.map_eq_some_iff.mp h
      cases he
      rw [List.cons_append, ih hb]

def unguard (quote : Char) : List Char → List Char
  | [] => []
  | [c] => [c]
  | c :: d :: cs =>
    if c = '\\' ∧ d = quote then quote :: unguard quote cs
    else c :: unguard quote (d :: cs)

def decode : List Char → List Char
  | [] => []
  | quote :: cs => unguard quote cs.dropLast

/-- A value between double quotes. Each double quote inside gets a backslash. -/
def encode (value : List Char) : List Char :=
  '"' :: (value.flatMap (fun c => if c = '"' then ['\\', '"'] else [c]) ++ ['"'])

end TreeQuery.Literal
