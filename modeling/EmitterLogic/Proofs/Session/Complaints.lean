import EmitterLogic.Proofs.Session.Ends

namespace EmitterLogic

open Script (evaluate bindingsHost)

theorem Predicate.request_entries (c : Cache (Option Predicate)) (log : Log) (text : String) :
    ∀ e ∈ (request c log text).2.1.entries, e ∈ c.entries ∨ e.1 = text := by
  intro e member
  rw [request] at member
  cases asked : c.hit? text with
  | some found =>
    obtain ⟨a, known, made⟩ := Option.map_eq_some_iff.mp asked
    cases made
    rw [asked] at member
    exact .inl (Cache.touched_subset c known e member)
  | none =>
    have filled (p? : Option Predicate) (h : e ∈ (c.insert text p?).entries) :
        e ∈ c.entries ∨ e.1 = text :=
      (Cache.insert_subset c text p? e h).imp_right (congrArg Prod.fst)
    rw [asked] at member
    cases compiled : compile text with
    | ok p =>
      rw [compiled] at member
      exact filled _ member
    | error e =>
      rw [compiled] at member
      exact filled _ member

namespace Log

theorem writeOnce_of_seen {log : Log} {area key : String} (h : area ++ ":" ++ key ∈ log.seen)
    (message : String) : log.writeOnce area key message = log := by
  rw [writeOnce]
  exact if_pos (List.contains_iff_mem.mpr h)

theorem writeOnce_of_unseen {log : Log} {area key : String} (h : area ++ ":" ++ key ∉ log.seen)
    (message : String) : log.writeOnce area key message =
      { log with seen := (area ++ ":" ++ key) :: log.seen }.write area message := by
  rw [writeOnce]
  exact if_neg (mt List.contains_iff_mem.mp h)

theorem seen_writeOnce (log : Log) (area key message : String) :
    ∀ k, k ∈ (log.writeOnce area key message).seen ↔ k = area ++ ":" ++ key ∨ k ∈ log.seen := by
  intro k
  by_cases h : area ++ ":" ++ key ∈ log.seen
  · rw [writeOnce_of_seen h]
    exact ⟨.inr, fun either => either.elim (fun same => same ▸ h) id⟩
  · rw [writeOnce_of_unseen h]
    exact List.mem_cons

theorem newest_push {α : Type} (n : Nat) (xs : List α) (a : α) :
    newest n (newest n xs ++ [a]) = newest n (xs ++ [a]) := by
  have inside : xs.length - n ≤ xs.length := Nat.sub_le ..
  have pushed : xs.drop (xs.length - n) ++ [a] = (xs ++ [a]).drop (xs.length - n) :=
    (List.drop_append_of_le_length inside).symm
  rw [newest, newest, newest, pushed, List.drop_drop, List.length_drop, List.length_append,
    List.length_singleton]
  congr 1
  omega

end Log

namespace Session

/-- A request for the truth value of a text. -/
structure Query where
  sight : Sight := {}
  text : String
  fallback : Bool := false

def Query.request (q : Query) : Request := .evalPredicate q.sight q.text q.fallback

/-- What a line of the log is about. -/
inductive Complaint where
  | uncompiled (text : String)
  | failed (text : String)
deriving DecidableEq

namespace Complaint

/-- The key under which the line is written once. The failure of a text and a text that begins with
`eval:` may have the same. -/
def key : Complaint → String
  | uncompiled text => text
  | failed text => "eval:" ++ text

end Complaint

/-- What a request has to complain of, and the message: the text does not compile, or its evaluation
fails otherwise than by a fault. -/
inductive Raises (draws : Draws) (q : Query) : Complaint → String → Prop where
  | uncompiled {e : Predicate.Error} (visible : ¬(trimmed q.text).isEmpty = true)
    (refused : Predicate.compile (trimmed q.text) = .error e) :
    Raises draws q (.uncompiled (trimmed q.text)) (Predicate.rejection (trimmed q.text) e)
  | failed {p : Predicate} {i : Script.Interrupt}
    (compiled : Predicate.compile (trimmed q.text) = .ok p)
    (ran : (p.eval q.sight.context q.sight.vars draws).1 = .error i) (other : ∀ f, i ≠ .fault f) :
    Raises draws q (.failed (trimmed q.text))
      ("evaluation failed for " ++ quoted (trimmed q.text) ++ ": " ++ i.message)

/-- One of the requests, after those before it, has this to complain of. -/
def Raised (σ : Session) (queries : List Query) (c : Complaint) (message : String) : Prop :=
  ∃ earlier q, earlier ++ [q] <+: queries ∧ Raises (σ.after (earlier.map Query.request)).draws q c message

def Told (σ : Session) : Prop :=
  ∀ text, (text, none) ∈ σ.predicates.entries →
    "bool" ++ ":" ++ (Complaint.uncompiled text).key ∈ σ.log.seen

theorem after_append (σ : Session) (queries : List Query) (q : Query) :
    σ.after ((queries ++ [q]).map Query.request) =
      (q.request.perform (σ.after (queries.map Query.request))).2 := by
  rw [List.map_append, List.map_singleton, after, List.foldl_append]
  rfl

theorem raised_append {σ : Session} {queries : List Query} {q : Query} {c : Complaint}
    {message : String} :
    Raised σ (queries ++ [q]) c message ↔ Raised σ queries c message ∨
      Raises (σ.after (queries.map Query.request)).draws q c message := by
  constructor
  · rintro ⟨earlier, r, front, raises⟩
    rcases List.prefix_concat_iff.mp front with whole | front
    · obtain ⟨rfl, same⟩ := List.append_inj' whole rfl
      cases same
      exact .inr raises
    · exact .inl ⟨earlier, r, front, raises⟩
  · rintro (⟨earlier, r, front, raises⟩ | raises)
    · exact ⟨earlier, r, front.trans (List.prefix_append _ _), raises⟩
    · exact ⟨queries, q, List.prefix_rfl, raises⟩

section Step

variable {σ : Session} {q : Query}

theorem perform_evaluation (σ : Session) (q : Query) :
    (q.request.perform σ).2 = (evalPredicate q.sight q.text q.fallback σ).2 := by
  rcases ran : evalPredicate q.sight q.text q.fallback σ with ⟨result, after⟩
  simp only [Query.request, Request.perform, bind, ExceptT.bind, ExceptT.mk, StateT.bind, ran]
  cases result <;> rfl

theorem predicate?_eq (σ : Session) (text : String) :
    predicate? text σ = (.ok (Predicate.request σ.predicates σ.log text).1,
      { σ with predicates := (Predicate.request σ.predicates σ.log text).2.1
               log := (Predicate.request σ.predicates σ.log text).2.2 }) :=
  rfl

theorem perform_visible (h : σ.Consistent) (visible : ¬(trimmed q.text).isEmpty = true) :
    let asked := Predicate.request σ.predicates σ.log (trimmed q.text)
    let σ' := (q.request.perform σ).2
    σ'.predicates = asked.2.1 ∧
      match Predicate.compile (trimmed q.text) with
      | .error _ => σ'.log = asked.2.2
      | .ok p => σ'.log = (conclusion (trimmed q.text) q.fallback σ.log
          (p.eval q.sight.context q.sight.vars σ.draws).1).2 := by
  intro asked σ'
  have performed := perform_evaluation σ q
  obtain ⟨found, _⟩ := Predicate.request_holds h.predicates σ.log (trimmed q.text)
  have looked := predicate?_eq σ (trimmed q.text)
  rw [found] at looked
  cases compiled : Predicate.compile (trimmed q.text) with
  | error e =>
    have ended : evalPredicate q.sight q.text q.fallback σ =
        (.ok q.fallback, { σ with predicates := asked.2.1, log := asked.2.2 }) := by
      rw [compiled] at looked
      simp only [evalPredicate, if_neg visible, bind, ExceptT.bind, ExceptT.mk, StateT.bind, looked]
      rfl
    rw [ended] at performed
    exact ⟨congrArg Session.predicates performed, congrArg Session.log performed⟩
  | ok p =>
    rw [compiled] at looked
    have quiet := Predicate.request_log compiled σ.predicates σ.log
    rw [evalPredicate_of_found q.sight q.fallback visible looked, quiet] at performed
    have table : (q.request.perform σ).2.predicates = asked.2.1 := by
      rw [performed]
      rcases p.eval q.sight.context q.sight.vars σ.draws with ⟨result, draws⟩
      cases result with
      | ok b => rfl
      | error i => cases i <;> rfl
    obtain ⟨after, answered, log⟩ := evalPredicate_of_ok q.sight q.fallback h compiled
    refine ⟨table, ?_⟩
    dsimp only
    rw [← log]
    exact congrArg Session.log ((perform_evaluation σ q).trans (congrArg Prod.snd answered))

theorem perform_empty (empty : (trimmed q.text).isEmpty = true) : (q.request.perform σ).2 = σ := by
  rw [perform_evaluation]
  simp only [evalPredicate, if_pos empty]
  rfl

theorem Raises.visible {draws : Draws} {c : Complaint} {message : String}
    (h : Raises draws q c message) : ¬(trimmed q.text).isEmpty = true := by
  cases h with
  | uncompiled visible refused => exact visible
  | failed compiled ran other =>
    intro empty
    rw [Predicate.compile, if_pos empty] at compiled
    cases compiled

theorem request_refused (told : σ.Told) {text : String} {e : Predicate.Error}
    (refused : Predicate.compile text = .error e) (h : σ.Consistent) :
    (Predicate.request σ.predicates σ.log text).2.2 =
      σ.log.writeOnce "bool" text (Predicate.rejection text e) := by
  rw [Predicate.request]
  cases asked : σ.predicates.hit? text with
  | none =>
    rw [refused]
  | some found =>
    obtain ⟨p?, known, made⟩ := Option.map_eq_some_iff.mp asked
    cases made
    have held : p? = (Predicate.compile text).toOption :=
      h.predicates _ (Fields.mem_of_get? known)
    rw [refused] at held
    subst held
    exact (Log.writeOnce_of_seen (told text (Fields.mem_of_get? known)) _).symm

theorem perform_raises (h : σ.Consistent) (told : σ.Told) {c : Complaint} {message : String}
    (raises : Raises σ.draws q c message) :
    (q.request.perform σ).2.log = σ.log.writeOnce "bool" c.key message := by
  obtain ⟨_, log⟩ := perform_visible h raises.visible
  cases raises with
  | uncompiled visible refused =>
    rw [refused] at log
    exact log.trans (request_refused told refused h)
  | failed compiled ran other =>
    rw [compiled] at log
    dsimp only at log
    rw [ran, conclusion_of_error _ _ other] at log
    exact log

theorem perform_quiet (h : σ.Consistent) (quiet : ∀ c message, ¬Raises σ.draws q c message) :
    (q.request.perform σ).2.log = σ.log := by
  by_cases empty : (trimmed q.text).isEmpty = true
  · rw [perform_empty empty]
  obtain ⟨_, log⟩ := perform_visible h empty
  cases compiled : Predicate.compile (trimmed q.text) with
  | error e => exact absurd (.uncompiled empty compiled) (quiet _ _)
  | ok p =>
    rw [compiled] at log
    dsimp only at log
    rw [log]
    cases ran : (p.eval q.sight.context q.sight.vars σ.draws).1 with
    | ok b => rfl
    | error i =>
      cases i with
      | fault f => rfl
      | _ => exact absurd (.failed compiled ran nofun) (quiet _ _)

theorem perform_seen (h : σ.Consistent) (told : σ.Told) (k : String) (seen : k ∈ σ.log.seen) :
    k ∈ (q.request.perform σ).2.log.seen := by
  by_cases raises : ∃ c message, Raises σ.draws q c message
  · obtain ⟨c, message, raises⟩ := raises
    rw [perform_raises h told raises, Log.seen_writeOnce]
    exact .inr seen
  · rw [perform_quiet h fun c message given => raises ⟨c, message, given⟩]
    exact seen

theorem perform_told (h : σ.Consistent) (told : σ.Told) : (q.request.perform σ).2.Told := by
  intro text kept
  by_cases empty : (trimmed q.text).isEmpty = true
  · rw [perform_empty empty] at kept ⊢
    exact told text kept
  rw [(perform_visible h empty).1] at kept
  rcases Predicate.request_entries _ _ _ _ kept with before | here
  · exact perform_seen h told _ (told text before)
  · -- Only a text that is no predicate is kept as none.
    obtain ⟨_, after⟩ := Predicate.request_holds h.predicates σ.log (trimmed q.text)
    have here : text = trimmed q.text := here
    subst here
    have held : none = (Predicate.compile (trimmed q.text)).toOption := after _ kept
    cases compiled : Predicate.compile (trimmed q.text) with
    | ok p =>
      rw [compiled] at held
      cases held
    | error e =>
      rw [perform_raises h told (.uncompiled empty compiled), Log.seen_writeOnce]
      exact .inl rfl

end Step

section Runs

variable {σ τ : Session}

theorem after_alike (h : Alike σ τ) (requests : List Request) :
    Alike (σ.after requests) (τ.after requests) := by
  induction requests generalizing σ τ with
  | nil => exact h
  | cons q rest ih => exact ih (q.perform_independent σ τ h).2

theorem after_told (h : σ.Consistent) (told : σ.Told) (queries : List Query) :
    (σ.after (queries.map Query.request)).Told := by
  induction queries generalizing σ with
  | nil => exact told
  | cons q rest ih =>
    obtain ⟨_, alike⟩ := q.request.perform_independent σ σ ⟨h, h, rfl⟩
    rw [List.map_cons, after, List.foldl_cons]
    exact ih alike.first (perform_told h told)

def logOf (size : Nat) (written : List (Complaint × String)) : Log where
  size
  lines := Log.newest size (written.map fun w => "[bool] " ++ w.2)
  seen := (written.map fun w => "bool" ++ ":" ++ w.1.key).reverse

theorem seen_logOf (size : Nat) (written : List (Complaint × String)) (c : Complaint) :
    "bool" ++ ":" ++ c.key ∈ (logOf size written).seen ↔ c.key ∈ written.map fun w => w.1.key := by
  simp only [logOf, List.mem_reverse, List.mem_map, String.append_right_inj]

theorem logOf_write (size : Nat) (written : List (Complaint × String)) {c : Complaint}
    (fresh : c.key ∉ written.map fun w => w.1.key) (message : String) :
    (logOf size written).writeOnce "bool" c.key message = logOf size (written ++ [(c, message)]) := by
  rw [Log.writeOnce_of_unseen (mt (seen_logOf size written c).mp fresh)]
  simp only [logOf, Log.write, Log.push, Log.newest_push, List.map_append, List.map_singleton,
    List.reverse_append, List.reverse_singleton]
  rfl

/-- What the log has been told in the course of some requests: each key once, and nothing that was not
raised. -/
structure Writes (σ : Session) (queries : List Query) (written : List (Complaint × String)) : Prop where
  log (size : Nat) : ({ σ with log := { size } }.after (queries.map Query.request)).log =
    logOf size written
  distinct : (written.map fun w => w.1.key).Nodup
  raised : ∀ w ∈ written, Raised σ queries w.1 w.2
  every : ∀ c message, Raised σ queries c message → c.key ∈ written.map fun w => w.1.key

theorem Writes.nothing (σ : Session) : Writes σ [] [] where
  log size := by
    rw [logOf, List.map_nil, List.map_nil, Log.newest, List.drop_nil]
    rfl
  distinct := List.nodup_nil
  raised := nofun
  every c m := by
    rintro ⟨earlier, q, front, _⟩
    cases earlier <;> cases List.prefix_nil.mp front

theorem Raises.unique {draws : Draws} {q : Query} {c d : Complaint} {m n : String}
    (h : Raises draws q c m) (k : Raises draws q d n) : d = c := by
  cases h with
  | uncompiled visible refused =>
    cases k with
    | uncompiled visible refused => rfl
    | failed compiled ran other =>
      rw [refused] at compiled
      cases compiled
  | failed compiled ran other =>
    cases k with
    | uncompiled visible refused =>
      rw [compiled] at refused
      cases refused
    | failed compiled ran other => rfl

theorem Writes.query {queries : List Query} {written : List (Complaint × String)}
    (consistent : σ.Consistent) (empty : σ.predicates.entries = []) (h : Writes σ queries written)
    (q : Query) : ∃ more, Writes σ (queries ++ [q]) more := by
  have fresh (size : Nat) : Alike σ { σ with log := { size } } :=
    ⟨consistent, ⟨consistent.formulas, consistent.predicates⟩, rfl⟩
  have left (size : Nat) := after_alike (fresh size) (queries.map Query.request)
  have told (size : Nat) := after_told (fresh size).second
    (fun text kept => by rw [empty] at kept; cases kept) queries
  have still (w : Complaint × String) (inside : w ∈ written) :
      Raised σ (queries ++ [q]) w.1 w.2 := raised_append.mpr (.inl (h.raised w inside))
  by_cases raises : ∃ c m, Raises (σ.after (queries.map Query.request)).draws q c m
  · obtain ⟨c, m, raises⟩ := raises
    have log (size : Nat) :
        ({ σ with log := { size } }.after ((queries ++ [q]).map Query.request)).log =
          (logOf size written).writeOnce "bool" c.key m := by
      rw [after_append, perform_raises (left size).second (told size) ((left size).draws ▸ raises),
        h.log]
    by_cases known : c.key ∈ written.map fun w => w.1.key
    · refine ⟨written, fun size => ?_, h.distinct, still, fun d n given => ?_⟩
      · rw [log, Log.writeOnce_of_seen ((seen_logOf size written c).mpr known)]
      · rcases raised_append.mp given with before | now
        · exact h.every d n before
        · exact raises.unique now ▸ known
    · refine ⟨written ++ [(c, m)], fun size => ?_, ?_, fun w inside => ?_, fun d n given => ?_⟩
      · rw [log, logOf_write size written known]
      · rw [List.map_append, List.map_singleton, ← List.concat_eq_append, List.nodup_concat]
        exact ⟨known, h.distinct⟩
      · rcases List.mem_append.mp inside with before | now
        · exact still w before
        · rw [List.mem_singleton.mp now]
          exact raised_append.mpr (.inr raises)
      · rw [List.map_append, List.mem_append]
        rcases raised_append.mp given with before | now
        · exact .inl (h.every d n before)
        · exact .inr (raises.unique now ▸ List.mem_singleton_self _)
  · have quiet (c : Complaint) (m : String) (given : Raises _ q c m) : False := raises ⟨c, m, given⟩
    refine ⟨written, fun size => ?_, h.distinct, still, fun d n given => ?_⟩
    · rw [after_append, perform_quiet (left size).second ((left size).draws ▸ quiet), h.log]
    · exact h.every d n ((raised_append.mp given).resolve_right (quiet d n))

theorem exists_writes (consistent : σ.Consistent) (empty : σ.predicates.entries = [])
    (queries : List Query) : ∃ written, Writes σ queries written := by
  induction queries using List.reverseRec with
  | nil => exact ⟨[], .nothing σ⟩
  | append_singleton earlier q ih =>
    obtain ⟨written, writes⟩ := ih
    exact writes.query consistent empty q

/-- Whatever is asked of a session that has answered nothing, a log of any size is told, once each, of
texts that do not compile and of texts whose evaluation failed, and of each of them, unless its key is
also that of a text of the other kind; then it is told of one of the two. -/
theorem complained_once (config : Config) (formulas predicates : Option Int) (draws : Draws)
    (queries : List Query) :
    let σ := opened config formulas predicates draws
    ∃ written : List (Complaint × String),
      (∀ size, ({ σ with log := { size } }.after (queries.map Query.request)).log.lines =
        Log.newest size (written.map fun w => "[bool] " ++ w.2)) ∧
      (written.map Prod.fst).Nodup ∧
      (∀ w ∈ written, Raised σ queries w.1 w.2) ∧
      (∀ c m, Raised σ queries c m → (∀ d n, Raised σ queries d n → d.key = c.key → d = c) →
        c ∈ written.map Prod.fst) ∧
      ∀ text m n, Raised σ queries (.failed text) m → Raised σ queries (.uncompiled ("eval:" ++ text)) n →
        (.failed text ∈ written.map Prod.fst ↔ .uncompiled ("eval:" ++ text) ∉ written.map Prod.fst) := by
  intro σ
  obtain ⟨written, writes⟩ := exists_writes (opened_consistent config formulas predicates draws) rfl
    queries
  have keys : written.map (fun w => w.1.key) = (written.map Prod.fst).map Complaint.key := by
    rw [List.map_map]
    rfl
  have distinct := writes.distinct
  rw [keys] at distinct
  have one {c : Complaint} {m : String} (raised : Raised σ queries c m) :
      ∃ d ∈ written.map Prod.fst, d.key = c.key := by
    have inside := writes.every c m raised
    rw [keys] at inside
    exact List.mem_map.mp inside
  have given {d : Complaint} (inside : d ∈ written.map Prod.fst) : ∃ n, Raised σ queries d n := by
    obtain ⟨w, member, rfl⟩ := List.mem_map.mp inside
    exact ⟨w.2, writes.raised w member⟩
  refine ⟨written, fun size => congrArg Log.lines (writes.log size), .of_map _ distinct, writes.raised,
    ?_, ?_⟩
  · intro c m raised apart
    obtain ⟨d, inside, same⟩ := one raised
    obtain ⟨n, other⟩ := given inside
    exact apart d n other same ▸ inside
  · intro text m n raised other
    obtain ⟨d, inside, same⟩ := one raised
    constructor
    · intro first second
      have equal := List.inj_on_of_nodup_map distinct first second rfl
      cases equal
    · intro absent
      cases d with
      | failed u => exact (String.append_right_inj "eval:").mp same ▸ inside
      | uncompiled u =>
        have same : u = "eval:" ++ text := same
        exact absurd (same ▸ inside) absent

/-- The failure of `foo` silences the complaint that `eval:foo` is no predicate. -/
theorem failure_silences_syntax_error :
    let σ := opened {} none none {}
    let queries : List Query := [{ text := "foo" }, { text := "eval:foo" }]
    Raised σ queries (.uncompiled "eval:foo")
        "syntax error in 'eval:foo': Unexpected token ':' (line 1)" ∧
      (σ.after (queries.map Query.request)).log.lines =
        ["[bool] evaluation failed for 'foo': foo is not defined"] := by
  intro σ queries
  have bare : trimmed "eval:foo" = "eval:foo" := by decide +kernel
  let message := "syntax error in 'eval:foo': Unexpected token ':' (line 1)"
  have said : (match Predicate.compile "eval:foo" with
      | .error e => decide (Predicate.rejection "eval:foo" e = message)
      | .ok _ => false) = true := by decide +kernel
  refine ⟨?_, by decide +kernel⟩
  cases compiled : Predicate.compile "eval:foo" with
  | ok p =>
    rw [compiled] at said
    cases said
  | error e =>
    have raises : Raises (σ.after ([{ text := "foo" }].map Query.request)).draws { text := "eval:foo" }
        (.uncompiled (trimmed "eval:foo")) (Predicate.rejection (trimmed "eval:foo") e) :=
      .uncompiled (by decide +kernel) (by rw [bare, compiled])
    rw [compiled] at said
    have worded : Predicate.rejection "eval:foo" e = message := of_decide_eq_true said
    rw [bare, worded] at raises
    exact ⟨[{ text := "foo" }], { text := "eval:foo" }, List.prefix_rfl, raises⟩

end Runs

end Session

end EmitterLogic
