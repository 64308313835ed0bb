import EmitterLogic.Behavior.Kotlin
import EmitterLogic.Proofs.Behavior.Reread
import EmitterLogic.Proofs.Tick.CommentedText

/-!
The generated code of a behavior and of its own document. The code of a script does not depend on
how often the script was cleaned.
-/

namespace EmitterLogic

namespace Tick

open Text

variable {indent : String} {s : String}

theorem toKotlin_cleanSource : toKotlin indent (cleanSource s) = toKotlin indent s := by
  rw [toKotlin, listing_cleanSource, toKotlin]

end Tick

theorem Kotlin.tick_cleanSource (indent s : String) (actions : List TickAction) (hasBounds : Bool) :
    tick indent (Tick.cleanSource s) actions hasBounds = tick indent s actions hasBounds := by
  have clean := Tick.isClean_cleanSource s
  simp only [tick, Tick.isEmpty_cleanSource clean, Tick.toKotlin_cleanSource]

namespace Death

variable {d : Death} {m : MaxAge}

theorem integerOrVariable_finite {value : Datum} {x : Float} (h : value.finite? = .ok (some x))
    (fallback : Datum) : Kotlin.integerOrVariable value fallback = (do
      return toString (← truncated x)) := by
  rw [Kotlin.integerOrVariable, bind_of_ok h]

theorem maxAge_readAs (read : d.maxAge.ReadAs m) :
    Kotlin.maxAge (.text m.kind) m.value = Kotlin.maxAge (.text d.maxAge.kind) d.maxAge.value := by
  rcases read with rfl | ⟨one, rfl⟩
  · rfl
  · have number (a : Amount) : Kotlin.maxAge (.text (MaxAge.amount a).kind) (MaxAge.amount a).value =
        Kotlin.integerOrVariable a.toDatum (.int 1) := rfl
    have whole : (Amount.number (.int 1)).toDatum.finite? = .ok (some 1.0) := rfl
    have float : Amount.one.toDatum.finite? = .ok (some 1.0) := rfl
    rw [one, number, number, integerOrVariable_finite whole, integerOrVariable_finite float]

theorem toKotlin_readAs (read : d.maxAge.ReadAs m) (indent : String) (hasBounds : Bool) :
    toKotlin { d with maxAge := m } indent hasBounds = d.toKotlin indent hasBounds := by
  have particle : particleToKotlin { d with maxAge := m } = d.particleToKotlin := by
    simp only [particleToKotlin, maxAge_readAs read]
  have spawn : spawnToKotlin { d with maxAge := m } indent = d.spawnToKotlin indent := by
    rw [spawnToKotlin, particle, spawnToKotlin]
  have body : bodyToKotlin { d with maxAge := m } indent hasBounds =
      d.bodyToKotlin indent hasBounds := by
    rw [bodyToKotlin, spawn, bodyToKotlin]
  rw [toKotlin, body, toKotlin]

end Death

namespace Behavior

variable {raw : Datum} {b : Behavior}

theorem documentToKotlin_ok (h : ofDatum raw = .ok b) : documentToKotlin raw = b.toKotlin := by
  have read : Session.lift (.ok b) = (pure b : Live Behavior) := rfl
  rw [documentToKotlin, h, read, pure_bind]

/-- A document and the one that is saved after it was read have the same code, log and fault, in
whatever session they are asked for. -/
theorem saved_code_eq (h : ofDatum raw = .ok b) :
    documentToKotlin b.toDatum = documentToKotlin raw := by
  obtain ⟨m, again, read⟩ := ofDatum_reread (ofDatum_settled h)
  rw [documentToKotlin_ok again, documentToKotlin_ok h]
  simp only [toKotlin, Kotlin.tick_cleanSource, Death.toKotlin_readAs read]

theorem saved_code_eq_break :
    let raw : Datum := .object [("tickExpression", .text "let x = 1;\r\r\nx++"),
      ("death", .object [("enabled", .bool true), ("mode", .text "respawn"),
        ("maxAgeEnabled", .bool true)])]
    ∃ b, ofDatum raw = .ok b ∧ documentToKotlin b.toDatum = documentToKotlin raw := by
  intro raw
  have some : (ofDatum raw).toOption.isSome = true := by decide +kernel
  obtain ⟨b, found⟩ := Option.isSome_iff_exists.mp some
  have read : ofDatum raw = .ok b := ok_of_toOption found
  exact ⟨b, read, saved_code_eq read⟩

end Behavior

end EmitterLogic
