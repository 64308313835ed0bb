import EmitterLogic.Proofs.Script.Relations

namespace EmitterLogic.Script

variable {σ α β : Type}

namespace Executing

variable {host host' : Host σ} {limit limit' k : Nat} {R : RunRel σ}

section Loops

variable (hR : Executing host host' limit limit' k R) {N n : Nat} {s : Standing}
  {test test' : Run σ Bool} {body body' update update' : Run σ Unit}
include hR

theorem lower_le {x x' : Run σ α} (h : R N s x x') (hn : n ≤ N) : R n s x x' := by
  induction hn with
  | refl => exact h
  | step _ ih => exact ih (hR.lower h)

theorem testFirst (htest : R N s test test') (hbody : R N s.round body body')
    (hupdate : R N s update update') (hn : n ≤ N) :
    R n s (testFirst limit test body update n) (testFirst limit' test' body' update' (n + k)) := by
  induction n with
  | zero =>
    have tested := hR.lower_le htest hn
    rw [Nat.zero_add]
    -- the second loop may have fuel here, but the first one ends at its step
    cases k with
    | zero => exact hR.seq tested fun _ => RunRel.choose _ (hR.exhausted _ fun _ => rfl) (hR.value ())
    | succ k => exact hR.seq tested fun _ => RunRel.choose _ (hR.exhausted _ nofun) (hR.value ())
  | succ n ih =>
    rw [Nat.succ_add]
    have before : n ≤ N := by omega
    have rounds : R n s
        (goesOn body >>= fun b => if b then
          update >>= fun _ => Script.testFirst limit test body update n else pure ())
        (goesOn body' >>= fun b => if b then
          update' >>= fun _ => Script.testFirst limit' test' body' update' (n + k) else pure ()) :=
      hR.seq (hR.round (hR.lower_le hbody before)) fun _ =>
        RunRel.choose _ (hR.seq (hR.lower_le hupdate before) fun _ => ih before) (hR.value ())
    exact hR.seq (hR.lower_le htest hn) fun _ => RunRel.choose _ (hR.counted rounds) (hR.value ())

theorem bodyFirst (htest : R N s test test') (hbody : R N s.round body body') (hn : n ≤ N) :
    R n s (bodyFirst limit test body n) (bodyFirst limit' test' body' (n + k)) := by
  induction n with
  | zero =>
    cases k with
    | zero => exact hR.exhausted _ fun _ => rfl
    | succ k =>
      rw [Nat.zero_add]
      exact hR.exhausted _ nofun
  | succ n ih =>
    rw [Nat.succ_add]
    have before : n ≤ N := by omega
    have rounds : R n s
        (goesOn body >>= fun b => if b then
          test >>= fun more => if more then Script.bodyFirst limit test body n else pure ()
          else pure ())
        (goesOn body' >>= fun b => if b then
          test' >>= fun more => if more then Script.bodyFirst limit' test' body' (n + k) else pure ()
          else pure ()) :=
      hR.seq (hR.round (hR.lower_le hbody before)) fun _ =>
        RunRel.choose _ (hR.seq (hR.lower_le htest before) fun _ =>
          RunRel.choose _ (ih before) (hR.value ())) (hR.value ())
    exact hR.counted rounds

end Loops

section Statements

variable {n : Nat} {call call' : Nat → List Value → Run σ Value}

theorem opened (hR : Executing host host' limit limit' k R) {s : Standing} {body : List Stmt}
    {rest rest' : Nat → Run σ Unit}
    (h : ∀ place, R n (s.within place) (rest place) (rest' place)) :
    R n s
      (newScope >>= fun place => Script.hoist (place :: s.env) body >>= fun _ => rest place)
      (newScope >>= fun place => Script.hoist (place :: s.env) body >>= fun _ => rest' place) :=
  hR.scope fun place => hR.seq (hR.hoist rfl body) fun _ => h place

theorem caught (hR : Executing host host' limit limit' k R) {s : Standing} (param : Option String)
    (v : Value) {block block' : Nat → Run σ Unit}
    (h : ∀ place, R n (s.within place) (block place) (block' place)) :
    R n s
      (newScope >>= fun place => do
        if let some name := param then declare place name v
        block place)
      (newScope >>= fun place => do
        if let some name := param then declare place name v
        block' place) := by
  refine hR.scope fun place => ?_
  cases param with
  | none => exact h place
  | some name => exact hR.seq (hR.binds name v false rfl) fun _ => h place

mutual

theorem exec (hR : Executing host host' limit limit' k R) (hcall : R.Calls n call call')
    {s : Standing} (statement : Stmt) (taken : s.looped = true ∨ statement.strays = false)
    (declares : s.declares = true ∨ statement.OpensScope) :
    R n s (exec host limit n call s.env statement)
      (exec host' limit' (n + k) call' s.env statement) := by
  cases statement with
  | expr e =>
    simp only [Script.exec]
    refine hR.seq hR.count fun _ => ?_
    exact hR.seq (hR.evalExpr hcall e) fun _ => hR.value ()
  | empty =>
    simp only [Script.exec]
    exact hR.count
  | func f =>
    simp only [Script.exec]
    exact hR.count
  | declare kind items =>
    simp only [Script.exec]
    exact hR.seq hR.count fun _ => hR.declareAll (declares.resolve_right id) hcall kind items
  | block b =>
    simp only [Stmt.strays] at taken
    simp only [Script.exec]
    exact execBlock hR hcall b taken
  | branch test yes no =>
    simp only [Stmt.strays, Bool.or_eq_false_iff] at taken
    have declares := declares.resolve_right id
    simp only [Script.exec]
    refine hR.seq hR.count fun _ => ?_
    refine hR.seq (hR.evalTest hcall test) fun _ => ?_
    exact RunRel.choose _ (exec hR hcall yes (taken.imp_right And.left) (.inl declares))
      (execOption hR hcall no (taken.imp_right And.right) declares)
  | whileLoop test body =>
    simp only [Script.exec]
    exact hR.seq hR.count fun _ => hR.testFirst (hR.evalTest hcall test)
      (exec hR hcall body (.inl rfl) (.inl (declares.resolve_right id))) (hR.value ())
      (Nat.le_refl n)
  | doLoop body test =>
    simp only [Script.exec]
    exact hR.seq hR.count fun _ => hR.bodyFirst (hR.evalTest hcall test)
      (exec hR hcall body (.inl rfl) (.inl (declares.resolve_right id))) (Nat.le_refl n)
  | forLoop init test update body =>
    simp only [Stmt.strays] at taken
    simp only [Script.exec]
    refine hR.seq hR.count fun _ => hR.scope fun place => ?_
    refine hR.seq (execOption hR hcall init taken rfl) fun _ => ?_
    refine hR.testFirst ?_ (exec hR hcall body (.inl rfl) (.inl rfl)) ?_ (Nat.le_refl n)
    · cases test with
      | none => exact hR.value true
      | some e => exact hR.evalTest hcall e
    · exact hR.seq (hR.evalOption hcall update _) fun _ => hR.value ()
  | returning value =>
    simp only [Script.exec]
    refine hR.seq hR.count fun _ => ?_
    exact hR.seq (hR.evalOption hcall value _) fun v => hR.leaves (.returned v) nofun False.elim
  | breaking =>
    simp only [Script.exec]
    exact hR.seq hR.count fun _ => hR.leaves .breaking nofun fun _ => taken.resolve_right nofun
  | continuing =>
    simp only [Script.exec]
    exact hR.seq hR.count fun _ => hR.leaves .continuing nofun fun _ => taken.resolve_right nofun
  | throwing value =>
    simp only [Script.exec]
    refine hR.seq hR.count fun _ => ?_
    refine hR.seq (hR.evalExpr hcall value) fun v => ?_
    exact hR.seq (hR.textOf v) fun _ => hR.raise _
  | attempt body handler finalizer =>
    simp only [Stmt.strays, Bool.or_eq_false_iff] at taken
    simp only [Script.exec]
    refine hR.seq hR.count fun _ => ?_
    have attempted := execBlock hR hcall body (taken.imp_right fun calm => calm.1.1)
    have caught : R n s
        (handled (Script.execBlock host limit n call s.env body)
          (Script.execCatch host limit n call s.env handler))
        (handled (Script.execBlock host' limit' (n + k) call' s.env body)
          (Script.execCatch host' limit' (n + k) call' s.env handler)) := by
      cases handler with
      | none =>
        simp only [Script.execCatch, handled_none]
        exact attempted
      | some c =>
        cases c with
        | mk param block =>
          simp only [catchStrays] at taken
          simp only [Script.execCatch]
          exact hR.handle attempted fun v => hR.caught param v fun place =>
            execBlock hR hcall block (taken.imp_right fun calm => calm.1.2)
    cases finalizer with
    | none =>
      simp only [Script.execFinally, finalized_none]
      exact caught
    | some b =>
      cases b with
      | mk last =>
        simp only [finallyStrays, Block.strays] at taken
        simp only [Script.execFinally, Script.execBlock]
        exact hR.finish caught (hR.opened fun place =>
          execAll hR hcall last (taken.imp_right And.right) rfl)

theorem execBlock (hR : Executing host host' limit limit' k R) (hcall : R.Calls n call call')
    {s : Standing} (b : Block) (taken : s.looped = true ∨ b.strays = false) :
    R n s (execBlock host limit n call s.env b)
      (execBlock host' limit' (n + k) call' s.env b) := by
  cases b with
  | mk body =>
    simp only [Block.strays] at taken
    simp only [Script.execBlock]
    exact hR.seq hR.count fun _ => hR.opened fun place => execAll hR hcall body taken rfl

theorem execAll (hR : Executing host host' limit limit' k R) (hcall : R.Calls n call call')
    {s : Standing} (body : List Stmt) (taken : s.looped = true ∨ allStray body = false)
    (declares : s.declares = true) :
    R n s (execAll host limit n call s.env body)
      (execAll host' limit' (n + k) call' s.env body) := by
  cases body with
  | nil => exact hR.value ()
  | cons statement rest =>
    simp only [allStray, Bool.or_eq_false_iff] at taken
    simp only [Script.execAll]
    exact hR.seq (exec hR hcall statement (taken.imp_right And.left) (.inl declares)) fun _ =>
      execAll hR hcall rest (taken.imp_right And.right) declares

theorem execOption (hR : Executing host host' limit limit' k R) (hcall : R.Calls n call call')
    {s : Standing} (statement : Option Stmt) (taken : s.looped = true ∨ elseStrays statement = false)
    (declares : s.declares = true) :
    R n s (execOption host limit n call s.env statement)
      (execOption host' limit' (n + k) call' s.env statement) := by
  cases statement with
  | none => exact hR.value ()
  | some statement =>
    simp only [elseStrays] at taken
    simp only [Script.execOption]
    exact exec hR hcall statement taken (.inl declares)

end

variable (hR : Executing host host' limit limit' k R) (hcall : R.Calls n call call')
  {s : Standing} (declares : s.declares = true)
include hR hcall declares

theorem execBody (body : List Stmt) (taken : s.looped = true ∨ allStray body = false) :
    R n s (execBody host limit n call s.env body)
      (execBody host' limit' (n + k) call' s.env body) :=
  hR.seq (hR.hoist declares body) fun _ => hR.execAll hcall body taken declares

theorem runBody (body : Body) (taken : s.looped = true ∨ body.strays = false) :
    R n s (runBody host limit n call s.env body)
      (runBody host' limit' (n + k) call' s.env body) := by
  cases body with
  | concise e => exact hR.evalExpr hcall e
  | block b =>
    cases b with
    | mk body =>
      simp only [Body.strays, Block.strays] at taken
      exact hR.body (hR.execBody hcall declares body taken)

end Statements

end Executing

section Calls

variable {host host' : Host σ} {limit limit' k : Nat} {Seen : Env → Prop} {R : RunRel σ}

theorem Calling.runClosure (hR : Calling host host' limit limit' k Seen R) {n : Nat} {s : Standing}
    {call call' : Nat → List Value → Run σ Value} (hcall : R.Calls n call call')
    (args : List Value) {c : Closure} (seen : Seen c.env)
    (taken : s.looped = true ∨ c.func.strays = false) :
    R n s (runClosure host limit n call args (some c))
      (runClosure host' limit' (n + k) call' args (some c)) := by
  obtain ⟨⟨_, params, body⟩, env⟩ := c
  simp only [Func.strays] at taken
  refine hR.enters seen fun place => hR.seq (hR.bindParams rfl hcall params args) fun _ => ?_
  exact hR.inner (hR.runBody hcall rfl body taken)

namespace Compatible

variable (hR : Compatible host host' limit limit' k Seen R)
include hR

theorem invoke (n : Nat) (s : Standing) (place : Nat) (args : List Value) :
    R n s (invoke host limit n place args) (invoke host' limit' (n + k) place args) := by
  induction n generalizing s place args with
  | zero =>
    cases k with
    | zero => exact hR.exhausted _ fun _ => rfl
    | succ k =>
      rw [Nat.zero_add]
      exact hR.exhausted _ nofun
  | succ n ih =>
    rw [Nat.succ_add]
    simp only [Script.invoke]
    refine hR.counted (hR.known (fun _ _ => rfl) fun m seen => ?_)
    have called : R n s
        (Script.runClosure host limit n (Script.invoke host limit n) args m.closures[place]?)
        (Script.runClosure host' limit' (n + k) (Script.invoke host' limit' (n + k)) args
          m.closures[place]?) := by
      cases found : m.closures[place]? with
      | none => exact hR.value _
      | some c =>
        have there := seen c (Array.mem_of_getElem? found)
        exact hR.passes (hR.runClosure ih args there (.inl rfl))
    exact RunRel.choose _ (hR.seq (hR.raise _) fun _ => called) called

theorem script (n : Nat) (body : List Stmt) :
    R n { env := rootEnv }
      (Script.execBody host limit n (Script.invoke host limit n) rootEnv body)
      (Script.execBody host' limit' (n + k) (Script.invoke host' limit' (n + k)) rootEnv body) :=
  hR.execBody (hR.invoke n) rfl body (.inl rfl)

end Compatible

end Calls

end EmitterLogic.Script
