import Mathlib.Data.List.Basic
import Mathlib.Tactic.Common

/-!
# Lib.EventLog

Logs of events, the newest event at the head.

* `EachAfter P` — every event satisfies `P` together with the events before it.

A system that keeps its log in the state proves `EachAfter` by an invariant, an event at a time
(`eachAfter_cons`).
-/

section EventLog

variable {ε : Type*} {P : List ε → ε → Prop} {past : List ε} {e : ε}

def EachAfter (P : List ε → ε → Prop) : List ε → Prop
  | [] => True
  | e :: past => P past e ∧ EachAfter P past

@[simp] theorem eachAfter_nil : EachAfter P [] := trivial

@[simp] theorem eachAfter_cons : EachAfter P (e :: past) ↔ P past e ∧ EachAfter P past := Iff.rfl

end EventLog
