import EmitterLogic.Proofs.Script.Sites
import EmitterLogic.Script.Parser

namespace EmitterLogic.Script

open Script.Parser

inductive Role where
  | value
  | property
  | key
  | literal
  | keyword
  | binder (kind : Binder)
  /-- The opening parenthesis of a call. -/
  | call (callee : Expr)
  /-- The opening parenthesis of the parameters of an arrow function, or of another function. -/
  | list (arrow : Bool)
  /-- The opening parenthesis of the name of a handler. -/
  | caught
  /-- A comma between parameters. -/
  | separator
  | other

structure Tagged where
  token : Token
  role : Role

def roleSites (t : Token) : Role → List Site
  | .value =>
    match t.kind with
    | .word w => [.name w t.position]
    | _ => []
  | .binder kind =>
    match t.kind with
    | .word w => binderSite kind w
    | _ => []
  | .call callee => [.call callee]
  | _ => []

def awaitingWords : List String := ["let", "const", "var", "function", "catch"]

/-- The words that begin a statement or go on with one, and the one that is an operator. -/
def statementWords : List String :=
  ["let", "const", "var", "function", "if", "else", "while", "do", "for", "return", "break",
    "continue", "throw", "try", "catch", "finally", "typeof"]

namespace Tagged

def isKeyword (d : Tagged) (w : String) : Bool :=
  match d.role with
  | .keyword => d.token.isWord w
  | _ => false

def awaits (d : Tagged) : Bool :=
  match d.role with
  | .keyword => awaitingWords.any d.token.isWord
  | .binder .function => true
  | .list _ => true
  | .caught => true
  | .separator => true
  | .other => d.token.isMark .dot
  | _ => false

def isOperand (d : Tagged) : Bool :=
  match d.token.kind with
  | .number _ => true
  | .text _ => true
  | .word _ =>
    match d.role with
    | .value => true
    | .property => true
    | .literal => true
    | _ => false
  | _ => false

def isList (d : Tagged) : Bool :=
  match d.role with
  | .list _ => true
  | _ => false

end Tagged

def isParen (t : Token) : Bool := t.isMark .leftParen || t.isMark .rightParen

def isNamed : Expr → Bool
  | .name _ _ => true
  | .member _ _ => true
  | _ => false

section Past

def Settled (past : List Tagged) : Prop := ∀ d ∈ past.head?, d.awaits = false

def Loose (past : List Tagged) : Prop := ∀ d ∈ past.head?, d.isOperand = false

def Unlisted : List Tagged → Prop
  | [] => True
  | d :: past => if bracketStep d.token = 0 then Unlisted past else d.isList = false

def InList (arrow : Bool) (past : List Tagged) : Prop :=
  ∃ inner o outer, past = inner ++ o :: outer ∧ o.role = .list arrow ∧
    ∀ d ∈ inner.reverse.find? fun d => isParen d.token, d.token.isMark .rightParen = false

def EndsAs : List Tagged → Expr → Prop
  | ⟨⟨.word w, position, _⟩, .value⟩ :: _, e => e = .name w position
  | ⟨⟨.word w, _, _⟩, .property⟩ :: _ :: past, e => ∃ holder, e = .member holder w ∧ EndsAs past holder
  | d :: _, e => isNamed e = true → d.token.isMark .rightParen = true
  | [], _ => True

def Suits (past : List Tagged) (t : Token) (after : List Token) : Role → Prop
  | .value => Settled past ∧ ∃ w, t.kind = .word w ∧
    (isReserved w = true →
      (front after).isMark .comma = true ∨ (front after).isMark .rightBrace = true)
  | .property => (∃ w, t.kind = .word w) ∧ ∃ d ∈ past.head?, d.token.isMark .dot = true
  | .key => Settled past ∧ (∀ m, t.kind ≠ .mark m) ∧ (front after).isMark .colon = true
  | .literal => Settled past ∧ ∃ w l, t.kind = .word w ∧ literalOf? w = some l
  | .keyword => Settled past ∧ ∃ w ∈ statementWords, t.kind = .word w
  | .binder kind => (∃ w, t.freeWord? = some w) ∧
    match kind with
    | .first => ∃ d ∈ past.head?, d.isKeyword "let" || d.isKeyword "const" || d.isKeyword "var"
    | .later => Settled past
    | .function => ∃ d ∈ past.head?, d.isKeyword "function"
    | .handler => (∃ d ∈ past.head?, d.role = .caught) ∧ (front after).isMark .rightParen = true
    | .parameter =>
      Settled past ∧ (front after).isMark .arrow = true ∨
      (∃ arrow, InList arrow past) ∧ (∃ d ∈ past.head?, d.isList = true ∨ d.role = .separator) ∧
        ((front after).isMark .comma = true ∨ (front after).isMark .rightParen = true ∨
          (front after).isMark .assign = true)
  | .call callee => t.isMark .leftParen = true ∧ Settled past ∧ EndsAs past callee
  | .list arrow => t.isMark .leftParen = true ∧
    if arrow then Settled past ∧ Loose past ∧ arrowAhead (t :: after) = true
    else (∃ d ∈ past.head?, d.isKeyword "function") ∨ ∃ d ∈ past.head?, d.role = .binder .function
  | .caught => t.isMark .leftParen = true ∧ ∃ d ∈ past.head?, d.isKeyword "catch"
  | .separator => t.isMark .comma = true ∧ Settled past
  | .other =>
    (Settled past ∨ (t.isMark .rightParen = true ∧ ∃ d ∈ past.head?, d.isList = true) ∨
      t.isMark .leftBrace = true ∧ ∃ d ∈ past.head?, d.isKeyword "catch") ∧
    (∀ w, t.kind ≠ .word w) ∧
    (t.isMark .leftParen = true → Loose past) ∧
    (t.isMark .comma = true → Unlisted past) ∧
    (t.isMark .arrow = true → ∃ d before, past = d :: before ∧
      (d.role = .binder .parameter ∨ d.token.isMark .rightParen = true ∧ InList true before))

end Past

inductive Passage : List Tagged → List Token → List Site → List Tagged → List Token → Prop where
  | here {past : List Tagged} {ts : List Token} : Passage past ts [] past ts
  | step {past past' : List Tagged} {t : Token} {ts rest : List Token} {role : Role}
    {sites : List Site} (suits : Suits past t ts role)
    (more : Passage (⟨t, role⟩ :: past) ts sites past' rest) :
    Passage past (t :: ts) (roleSites t role ++ sites) past' rest

namespace Passage

variable {past past' past'' : List Tagged} {ts us rest : List Token} {s s' : List Site}

theorem trans (h : Passage past ts s past' us) (h' : Passage past' us s' past'' rest) :
    Passage past ts (s ++ s') past'' rest := by
  induction h with
  | here => exact h'
  | step suits _ ih =>
    rw [List.append_assoc]
    exact .step suits (ih h')

theorem one {t : Token} {role : Role} (suits : Suits past t ts role) :
    Passage past (t :: ts) (roleSites t role) (⟨t, role⟩ :: past) ts := by
  rw [← List.append_nil (roleSites t role)]
  exact .step suits .here

theorem suffix (h : Passage past ts s past' rest) : past <:+ past' := by
  induction h with
  | here => exact List.suffix_refl _
  | step _ _ ih => exact (List.suffix_cons _ _).trans ih

theorem length_le (h : Passage past ts s past' rest) : past.length ≤ past'.length :=
  h.suffix.length_le

theorem length (h : Passage past ts s past' rest) :
    ts.length + past.length = rest.length + past'.length := by
  induction h with
  | here => rfl
  | step _ _ ih =>
    rw [List.length_cons] at ih ⊢
    omega

end Passage

end EmitterLogic.Script
