import EmitterLogic.Formula.Program
import EmitterLogic.Proofs.Number.Unsigned
import EmitterLogic.Proofs.Fault

namespace EmitterLogic.Formula

open Binary64 Text

section Tokens

variable {P : Token → Prop}

theorem spacedTokenAt_all (h : ∀ cs n t, tokenAt? cs = some (n, t) → P t) {cs : List Char} {n : Nat}
    {t : Token} (found : spacedTokenAt? cs = some (n, t)) : P t := by
  obtain ⟨⟨m, u⟩, token, same⟩ := Option.map_eq_some_iff.mp found
  cases same
  exact h _ _ _ token

-- the equations of `tokensFrom` as such take long to work out, so they are stated by hand
theorem tokensFrom_nil (place skip : Nat) : tokensFrom place skip [] = .ok [] := by
  delta tokensFrom
  with_reducible_and_instances rfl

theorem tokensFrom_succ (place skip : Nat) (c : Char) (rest : List Char) :
    tokensFrom place (skip + 1) (c :: rest) = tokensFrom (place + 1) skip rest := by
  delta tokensFrom
  with_reducible_and_instances rfl

theorem tokensFrom_zero (place : Nat) (c : Char) (rest : List Char) :
    tokensFrom place 0 (c :: rest) =
      match spacedTokenAt? (c :: rest) with
      | some (n, t) => (tokensFrom (place + 1) (n - 1) rest).map (t :: ·)
      | none => .error (.unexpected place c) := by
  delta tokensFrom
  with_reducible_and_instances rfl

theorem tokensFrom_all (h : ∀ cs n t, tokenAt? cs = some (n, t) → P t) {place skip : Nat}
    {cs : List Char} {ts : List Token} (read : tokensFrom place skip cs = .ok ts) :
    ∀ t ∈ ts, P t := by
  induction cs generalizing place skip ts with
  | nil =>
    rw [tokensFrom_nil] at read
    cases read
    exact nofun
  | cons c rest ih =>
    cases skip with
    | succ skip =>
      rw [tokensFrom_succ] at read
      exact ih read
    | zero =>
      rw [tokensFrom_zero] at read
      cases found : spacedTokenAt? (c :: rest) with
      | none =>
        rw [found] at read
        cases read
      | some token =>
        obtain ⟨n, t⟩ := token
        rw [found] at read
        obtain ⟨us, more, rfl⟩ := map_ok read
        exact List.forall_mem_cons.mpr ⟨spacedTokenAt_all h found, ih more⟩

def Token.Proper : Token → Prop
  | .number x => Unsigned x
  | .name w => isIdentChars w.toList = true
  | _ => True

theorem tokenAt_proper (cs : List Char) (n : Nat) (t : Token) (h : tokenAt? cs = some (n, t)) :
    t.Proper := by
  cases cs with
  | nil => cases h
  | cons c rest =>
    simp only [tokenAt?] at h
    split at h
    · next start =>
      cases h
      have parts : (rest.takeWhile isIdentPart).all isIdentPart = true := List.all_takeWhile
      rw [Token.Proper, String.toList_ofList, isIdentChars, start, parts]
      rfl
    · split at h
      · next digit =>
        obtain ⟨x, read, same⟩ := Option.map_eq_some_iff.mp h
        cases same
        have positive : 0 < numeralCount (c :: rest) := by
          have first : 0 < digitCount (c :: rest) := by
            rw [digitCount, List.takeWhile_cons_of_pos digit, List.length_cons]
            exact Nat.succ_pos _
          rw [numeralCount]
          omega
        obtain ⟨k, count⟩ := Nat.exists_eq_succ_of_ne_zero (Nat.ne_of_gt positive)
        rw [count, List.take_succ_cons] at read
        exact Reading.unsigned_float digit read
      · split at h
        · cases h
          trivial
        · cases h
          trivial
        · obtain ⟨o, _, same⟩ := Option.map_eq_some_iff.mp h
          cases same
          trivial

theorem tokens_proper {text : String} {ts : List Token} (h : tokens text = .ok ts) :
    ∀ t ∈ ts, t.Proper := tokensFrom_all tokenAt_proper h

end Tokens

section Released

variable {pending left : List Pending} {out : List Instr}

theorem releaseFor_front (next : Operator) (h : releaseFor next pending = (out, left)) :
    ∃ ops : List Operator, out = ops.map .op ∧ pending = ops.map .op ++ left := by
  induction pending generalizing out left with
  | nil =>
    cases h
    exact ⟨[], rfl, rfl⟩
  | cons p rest ih =>
    cases p with
    | opening =>
      cases h
      exact ⟨[], rfl, rfl⟩
    | op o =>
      rw [releaseFor] at h
      split at h
      · rcases released : releaseFor next rest with ⟨more, left'⟩
        rw [released] at h
        cases h
        obtain ⟨ops, rfl, rfl⟩ := ih released
        exact ⟨o :: ops, rfl, rfl⟩
      · cases h
        exact ⟨[], rfl, rfl⟩

theorem releaseGroup_front (h : releaseGroup pending = some (out, left)) :
    ∃ ops : List Operator, out = ops.map .op ∧ pending = ops.map .op ++ .opening :: left := by
  induction pending generalizing out left with
  | nil => cases h
  | cons p rest ih =>
    cases p with
    | opening =>
      cases h
      exact ⟨[], rfl, rfl⟩
    | op o =>
      obtain ⟨⟨more, left'⟩, released, same⟩ := Option.map_eq_some_iff.mp h
      cases same
      obtain ⟨ops, rfl, rfl⟩ := ih released
      exact ⟨o :: ops, rfl, rfl⟩

theorem releaseAll_front (h : releaseAll pending = some out) :
    ∃ ops : List Operator, out = ops.map .op ∧ pending = ops.map .op := by
  induction pending generalizing out with
  | nil =>
    cases h
    exact ⟨[], rfl, rfl⟩
  | cons p rest ih =>
    cases p with
    | opening => cases h
    | op o =>
      obtain ⟨more, released, same⟩ := Option.map_eq_some_iff.mp h
      cases same
      obtain ⟨ops, rfl, rfl⟩ := ih released
      exact ⟨o :: ops, rfl, rfl⟩

end Released

section Programs

def Instr.From (ts : List Token) : Instr → Prop
  | .number x => .number x ∈ ts
  | .name w => .name w ∈ ts
  | .op _ => True

theorem Instr.From.more {ts : List Token} {t : Token} {i : Instr} (h : i.From ts) :
    i.From (t :: ts) := by
  cases i with
  | number x => exact List.mem_cons_of_mem _ h
  | name w => exact List.mem_cons_of_mem _ h
  | op o => trivial

theorem from_ops (ops : List Operator) (ts : List Token) : ∀ i ∈ ops.map Instr.op, i.From ts := by
  intro i hi
  obtain ⟨o, _, rfl⟩ := List.mem_map.mp hi
  trivial

theorem programFrom_leaves {pending : List Pending} {afterValue : Bool} {ts : List Token}
    {program : List Instr} (h : programFrom pending afterValue ts = .ok program) :
    ∀ i ∈ program, i.From ts := by
  induction ts generalizing pending afterValue program with
  | nil =>
    rw [programFrom] at h
    split at h
    · next out released =>
      cases h
      obtain ⟨ops, rfl, _⟩ := releaseAll_front released
      exact from_ops ops []
    · cases h
  | cons t rest ih =>
    have later {more : List Instr} (ms : ∀ i ∈ more, i.From rest) : ∀ i ∈ more, i.From (t :: rest) :=
      fun i hi => (ms i hi).more
    cases t with
    | number x =>
      obtain ⟨more, read, rfl⟩ := map_ok h
      exact List.forall_mem_cons.mpr ⟨List.mem_cons_self, later (ih read)⟩
    | name w =>
      obtain ⟨more, read, rfl⟩ := map_ok h
      exact List.forall_mem_cons.mpr ⟨List.mem_cons_self, later (ih read)⟩
    | opening => exact later (ih h)
    | closing =>
      rw [programFrom] at h
      split at h
      · next out left released =>
        obtain ⟨more, read, rfl⟩ := map_ok h
        obtain ⟨ops, rfl, _⟩ := releaseGroup_front released
        exact List.forall_mem_append.mpr ⟨from_ops ops _, later (ih read)⟩
      · cases h
    | op o =>
      rw [programFrom] at h
      rcases released : releaseFor (operatorOf afterValue o) pending with ⟨out, left⟩
      rw [released] at h
      obtain ⟨ops, rfl, _⟩ := releaseFor_front _ released
      obtain ⟨more, read, rfl⟩ := map_ok h
      exact List.forall_mem_append.mpr ⟨from_ops ops _, later (ih read)⟩

theorem programFrom_empty {pending : List Pending} {afterValue : Bool} {ts : List Token}
    (h : programFrom pending afterValue ts = .ok []) :
    (∀ p ∈ pending, p = .opening) ∧ ∀ t ∈ ts, t = .opening ∨ t = .closing := by
  -- A pending operator would come out at last, so there can only be parentheses from the beginning on.
  induction ts generalizing pending afterValue with
  | nil =>
    refine ⟨?_, nofun⟩
    rw [programFrom] at h
    match pending with
    | [] => exact nofun
    | .opening :: _ => cases h
    | .op o :: rest =>
      cases released : releaseAll rest with
      | none =>
        rw [releaseAll, released] at h
        cases h
      | some out =>
        rw [releaseAll, released] at h
        cases h
  | cons t rest ih =>
    cases t with
    | number x =>
      obtain ⟨more, _, same⟩ := map_ok h
      cases same
    | name w =>
      obtain ⟨more, _, same⟩ := map_ok h
      cases same
    | opening =>
      obtain ⟨waiting, parens⟩ := ih h
      exact ⟨(List.forall_mem_cons.mp waiting).2, List.forall_mem_cons.mpr ⟨.inl rfl, parens⟩⟩
    | closing =>
      rw [programFrom] at h
      match pending with
      | [] => cases h
      | .opening :: left =>
        obtain ⟨more, read, same⟩ := map_ok h
        obtain rfl : more = [] := same
        obtain ⟨waiting, parens⟩ := ih read
        exact ⟨List.forall_mem_cons.mpr ⟨rfl, waiting⟩,
          List.forall_mem_cons.mpr ⟨.inr rfl, parens⟩⟩
      | .op o :: left =>
        cases released : releaseGroup left with
        | none =>
          rw [releaseGroup, released] at h
          cases h
        | some group =>
          rw [releaseGroup, released] at h
          obtain ⟨more, _, same⟩ := map_ok h
          cases same
    | op o =>
      obtain ⟨more, read, same⟩ := map_ok h
      obtain rfl : more = [] := (List.append_eq_nil_iff.mp same).2
      cases (ih read).1 _ List.mem_cons_self

end Programs

theorem compile_proper {text : String} {f : Formula} (h : compile text = .ok f) :
    (∀ x, .number x ∈ f.program → Unsigned x) ∧
      ∀ w, .name w ∈ f.program → isIdentChars w.toList = true := by
  obtain ⟨ts, read, programmed⟩ := bind_ok h
  obtain ⟨program, made, same⟩ := bind_ok programmed
  cases same
  have leaves := programFrom_leaves made
  have proper := tokens_proper read
  exact ⟨fun x hx => proper _ (leaves _ hx), fun w hw => proper _ (leaves _ hw)⟩

theorem tokenAt_paren {c : Char} {rest : List Char} {n : Nat} {t : Token}
    (h : tokenAt? (c :: rest) = some (n, t)) (paren : t = .opening ∨ t = .closing) :
    c = '(' ∨ c = ')' := by
  simp only [tokenAt?] at h
  split at h
  · cases h
    rcases paren with paren | paren <;> cases paren
  · split at h
    · obtain ⟨x, _, same⟩ := Option.map_eq_some_iff.mp h
      cases same
      rcases paren with paren | paren <;> cases paren
    · split at h
      · exact .inl rfl
      · exact .inr rfl
      · obtain ⟨o, _, same⟩ := Option.map_eq_some_iff.mp h
        cases same
        rcases paren with paren | paren <;> cases paren

theorem compile_empty {text : String} {f : Formula} (h : compile text = .ok f)
    (empty : f.program = []) {c : Char} {rest : List Char}
    (start : trimStart text.toList = c :: rest) : c = '(' ∨ c = ')' := by
  obtain ⟨ts, read, programmed⟩ := bind_ok h
  obtain ⟨program, made, same⟩ := bind_ok programmed
  cases same
  obtain rfl : program = [] := empty
  have parens := (programFrom_empty made).2
  rw [tokens] at read
  cases cs : text.toList with
  | nil =>
    rw [cs] at start
    cases start
  | cons d more =>
    rw [cs, tokensFrom_zero] at read
    cases found : spacedTokenAt? (d :: more) with
    | none =>
      rw [found] at read
      cases read
    | some token =>
      obtain ⟨n, t⟩ := token
      rw [found] at read
      obtain ⟨us, _, rfl⟩ := map_ok read
      obtain ⟨⟨m, u⟩, here, same⟩ := Option.map_eq_some_iff.mp found
      cases same
      rw [cs] at start
      rw [start] at here
      exact tokenAt_paren here (parens t List.mem_cons_self)

end EmitterLogic.Formula
