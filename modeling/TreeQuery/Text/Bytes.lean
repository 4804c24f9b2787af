/-!
# Offsets in text

Positions in a text count bytes of its UTF-8 form. A cut at such an offset is done on the list of
characters, and a cut between two parts gives them back (`takeBytes_size`, `dropBytes_size`).
-/

namespace TreeQuery.Text

def size : List Char → Nat
  | [] => 0
  | c :: cs => c.utf8Size + size cs

@[simp] theorem size_nil : size [] = 0 := rfl

@[simp] theorem size_cons (c : Char) (cs : List Char) : size (c :: cs) = c.utf8Size + size cs := rfl

@[simp] theorem size_append (a b : List Char) : size (a ++ b) = size a + size b := by
  induction a with
  | nil => simp
  | cons c cs ih => simp [ih, Nat.add_assoc]

def dropBytes : Nat → List Char → List Char
  | 0, cs => cs
  | _ + 1, [] => []
  | n + 1, c :: cs => dropBytes (n + 1 - c.utf8Size) cs

def takeBytes : Nat → List Char → List Char
  | 0, _ => []
  | _ + 1, [] => []
  | n + 1, c :: cs => c :: takeBytes (n + 1 - c.utf8Size) cs

private theorem utf8Size_eq_succ (c : Char) : ∃ k, c.utf8Size = k + 1 :=
  ⟨c.utf8Size - 1, by have := Char.utf8Size_pos c; omega⟩

@[simp] theorem takeBytes_size (a b : List Char) : takeBytes (size a) (a ++ b) = a := by
  induction a with
  | nil => simp [takeBytes]
  | cons c cs ih =>
    obtain ⟨k, hk⟩ := utf8Size_eq_succ c
    rw [size_cons, List.cons_append, show c.utf8Size + size cs = (k + size cs) + 1 by omega,
      takeBytes, show k + size cs + 1 - c.utf8Size = size cs by omega, ih]

@[simp] theorem dropBytes_size (a b : List Char) : dropBytes (size a) (a ++ b) = b := by
  induction a with
  | nil => simp [dropBytes]
  | cons c cs ih =>
    obtain ⟨k, hk⟩ := utf8Size_eq_succ c
    rw [size_cons, List.cons_append, show c.utf8Size + size cs = (k + size cs) + 1 by omega,
      dropBytes, show k + size cs + 1 - c.utf8Size = size cs by omega, ih]

end TreeQuery.Text
