import TreeQuery.Selector.Basic
import TreeQuery.Selector.Fault
/-!
# Reading selector lists

The language of selector lists is regular over tokens, so a reader needs no stack: `Reader.advance?`
takes one token, `Reader.finish?` says whether the list may end, and `Reader.fault` explains why a
token fits neither. Each token taken costs one unit of the budget, if there is a budget.
-/

namespace TreeQuery

structure Draft where
  /-- The finished branches. -/
  branches : List Branch
  /-- The finished steps of the branch at hand. -/
  steps : List Step
  /-- The combinator of the step at hand. -/
  combinator : Option Combinator
  /-- The tests of the step at hand. -/
  atoms : List Atom
  deriving DecidableEq, Repr

namespace Draft

def empty : Draft := ⟨[], [], none, []⟩

def addAtom (d : Draft) (a : Atom) : Draft :=
  { d with atoms := d.atoms ++ [a] }

/-- Finishes the step at hand and starts one behind a combinator. -/
def addStep (d : Draft) (c : Combinator) : Draft :=
  ⟨d.branches, d.steps ++ [⟨d.combinator, d.atoms⟩], some c, []⟩

/-- Finishes the branch at hand, with the step at hand, and starts another one. -/
def addBranch (d : Draft) : Draft :=
  ⟨d.branches ++ [d.steps ++ [⟨d.combinator, d.atoms⟩]], [], none, []⟩

def close (d : Draft) : SelectorList :=
  d.addBranch.branches

/-- The list that ends before the step at hand. -/
def closeBefore (d : Draft) : SelectorList :=
  d.branches ++ [d.steps]

end Draft

inductive Reader where
  /-- Before the `start` token. -/
  | opening
  /-- At the start of the list, where blanks mean nothing. -/
  | leading
  /-- At the start of a step, behind the given combinator token unless a branch starts here. -/
  | step (draft : Draft) (joint : Option Token)
  /-- After a test. -/
  | within (draft : Draft)
  /-- After a bracket. -/
  | attrName (draft : Draft) (bracket : Token)
  /-- After the name of an attribute. -/
  | attrOperator (draft : Draft) (bracket : Token) (name : String)
  /-- After an attribute operator. -/
  | operand (draft : Draft) (bracket : Token) (name : String) (op : AttrOperator)
  /-- After an operand. -/
  | attrClose (draft : Draft) (bracket : Token) (test : Atom)
  deriving DecidableEq, Repr

namespace Reader

/-! ## Taking a token -/

def combinator? : Token.Kind → Option Combinator
  | .blank => some .descendant
  | .greater => some .child
  | .plus => some .nextSibling
  | .tilde => some .laterSibling
  | _ => none

/-- The tests that may stand anywhere in a step, and a bracket that opens one. -/
def advanceTest? (source : String) (d : Draft) (t : Token) : Option Reader :=
  match t.kind with
  | .hash => some (within (d.addAtom (.id (t.value source))))
  | .className => some (within (d.addAtom (.className (t.value source))))
  | .bracket => some (attrName d t)
  | _ => none

def advanceStep? (source : String) (d : Draft) (t : Token) : Option Reader :=
  match t.kind with
  | .ident => some (within (d.addAtom (.type (t.value source))))
  | .universal => some (within (d.addAtom .universal))
  | _ => advanceTest? source d t

/-- Where the reader stands after one more token, if the token may stand here. -/
def advance? (source : String) (r : Reader) (t : Token) : Option Reader :=
  match r with
  | opening => if t.kind = .start then some leading else none
  | leading =>
    if t.kind = .blank then some leading else advanceStep? source .empty t
  | step d _ => advanceStep? source d t
  | within d =>
    match combinator? t.kind with
    | some c => some (step (d.addStep c) (some t))
    | none =>
      if t.kind = .comma then some (step d.addBranch none) else advanceTest? source d t
  | attrName d b =>
    match t.kind with
    | .blank => some (attrName d b)
    | .ident => some (attrOperator d b (t.value source))
    | _ => none
  | attrOperator d b name =>
    match t.kind with
    | .blank => some (attrOperator d b name)
    | .closingBracket => some (within (d.addAtom (.attr name)))
    | .operator op => some (operand d b name op)
    | _ => none
  | operand d b name op =>
    match t.kind with
    | .ident | .literal => some (attrClose d b (.attrTest name op (t.value source)))
    | _ => none
  | attrClose d b test =>
    match t.kind with
    | .blank => some (attrClose d b test)
    | .closingBracket => some (within (d.addAtom test))
    | _ => none

/-- The selector list that has been read, if it may end here. A blank at the very end is no
combinator. -/
def finish? : Reader → Option SelectorList
  | within d => some d.close
  | step d (some joint) => if joint.kind = .blank then some d.closeBefore else none
  | _ => none

/-! ## Faults -/

def unexpected (source : String) (expected : Expected) (t : Token) : ParseError :=
  let found := match t.kind with
    | .letter => "`" ++ String.ofList (t.text source) ++ "`"
    | k => k.describe
  ⟨.unexpected expected found, t.span⟩

/-- The last of the characters where an operator belongs, or the operator right after them. -/
def operatorEnd (t : Token) : List Token → Token
  | [] => t
  | u :: us =>
    if u.kind = .letter then operatorEnd u us
    else if u.kind.isOperator then u
    else t

def stepFault (source : String) (joint : Option Token) (t : Token) : ParseError :=
  match joint with
  | none =>
    if t.kind.isCombinator then ⟨.leadingCombinator, t.span⟩
    else if t.kind = .comma ∨ t.kind = .stop then ⟨.emptySelector, t.span⟩
    else unexpected source .simple t
  | some j =>
    if t.kind.isCombinator then ⟨.doubledCombinator, j.span.cover t.span⟩
    else if t.kind = .comma ∨ t.kind = .stop then ⟨.trailingCombinator, j.span⟩
    else unexpected source .simple t

/-- Inside brackets a token is in place of something else, unless the selector ends there. -/
def bracketFault (source : String) (expected : Expected) (bracket t : Token) : ParseError :=
  if t.kind = .stop then ⟨.unclosedAttribute, bracket.span.cover t.span⟩
  else unexpected source expected t

/-- Why a token that does not fit is wrong. The last argument holds the tokens after it. -/
def fault (source : String) (r : Reader) (t : Token) (after : List Token) : ParseError :=
  match r with
  | opening => unexpected source .start t
  | leading => if t.kind = .stop then ⟨.emptyList, t.span⟩ else stepFault source none t
  | step _ joint => stepFault source joint t
  | within _ =>
    if t.kind = .ident ∨ t.kind = .universal then ⟨.misplacedType, t.span⟩
    else unexpected source .simpleOrJoint t
  | attrName _ b => bracketFault source .attrName b t
  | attrOperator _ b _ =>
    if t.kind = .letter then
      let span := t.span.cover (operatorEnd t after).span
      ⟨.unknownOperator (String.ofList (Text.trim (span.slice source.toList))), span⟩
    else bracketFault source .operatorOrClose b t
  | operand _ b _ _ => bracketFault source .operand b t
  | attrClose _ b _ => bracketFault source .close b t

/-! ## Reading a stream -/

/-- Reads on from a place in a stream, with at most `budget` tokens to take. -/
def read (source : String) (r : Reader) (budget : Option Nat) :
    List Token → Except ParseError SelectorList
  | [] => .error (r.fault source ⟨.beyond, Span.empty (Text.size source.toList)⟩ [])
  | t :: ts =>
    match r.advance? source t with
    | some r' =>
      match budget with
      | some 0 => .error ⟨.budgetExhausted, t.span⟩
      | some (n + 1) => r'.read source (some n) ts
      | none => r'.read source none ts
    | none =>
      match if t.kind = .stop then r.finish? else none with
      | some l => .ok l
      | none => .error (r.fault source t ts)

end Reader

/-- The selector list that a token stream holds, read within an optional budget. -/
def SelectorList.ofTokens (source : String) (budget : Option Nat) (ts : List Token) :
    Except ParseError SelectorList :=
  Reader.opening.read source budget ts

end TreeQuery
