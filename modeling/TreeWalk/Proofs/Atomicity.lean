import TreeWalk.Proofs.Renumbering
import TreeWalk.Proofs.Correspondence

/-!
# Units that are rejected

A unit that is rejected before it runs leaves nothing behind but references that were given out and
distances under some of them (`Session.touched_static`). What later units give depends on neither,
so the session goes on as if the unit had never been there (`rejected_unit_leaves_session`).
-/

namespace TreeWalk

/-! ### What a unit gives -/

/-- What is seen of a unit: its values and their texts, or why there are none, and what it wrote. -/
structure Answer where
  result : Except Diagnostic (List (Option (Value × String)))
  output : String

namespace Session

def shown (s : Session) (values : List (Option Value)) : List (Option (Value × String)) :=
  values.map fun v => v.map fun v => (v, s.machine.heap.text v)

/-- Runs a unit and takes what it wrote. -/
def answer (limit : Nat) (source : List UInt8) (s : Session) : Option (Answer × Session) :=
  (s.run limit source).map fun r => (⟨r.1.map r.2.shown, r.2.takeOutput.1⟩, r.2.takeOutput.2)

/-- Runs units one after the other. -/
def answers (limit : Nat) : List (List UInt8) → Session → Option (List Answer × Session)
  | [], s => some ([], s)
  | source :: rest, s =>
    (s.answer limit source).bind fun a =>
      (a.2.answers limit rest).map fun r => (a.1 :: r.1, r.2)

theorem answers_append (limit : Nat) (us vs : List (List UInt8)) (s : Session) :
    s.answers limit (us ++ vs) = (s.answers limit us).bind fun a =>
      (a.2.answers limit vs).map fun r => (a.1 ++ r.1, r.2) := by
  induction us generalizing s with
  | nil => simp [answers]
  | cons u us ih =>
    rw [List.cons_append, answers, answers]
    cases s.answer limit u with
    | none => rfl
    | some a =>
      simp only [Option.bind_some, ih]
      cases a.2.answers limit us with
      | none => rfl
      | some b =>
        rw [Option.bind_some, Option.map_map]
        rfl

theorem length_answers {limit : Nat} {us : List (List UInt8)} {s s' : Session} {as : List Answer}
    (h : s.answers limit us = some (as, s')) : as.length = us.length := by
  induction us generalizing s as with
  | nil =>
    cases h
    rfl
  | cons u us ih =>
    obtain ⟨a, -, h⟩ := Option.bind_eq_some_iff.1 h
    obtain ⟨r, hr, heq⟩ := Option.map_eq_some_iff.1 h
    cases heq
    exact congrArg Nat.succ (ih hr)

variable {s s' : Session} {limit : Nat}

theorem takeOutput_of_output (h : s.machine.output = "") : s.takeOutput = ("", s) := by
  rw [takeOutput, ← h]

/-- Between units everything that was written has been taken. -/
theorem Settled.answers {us : List (List UInt8)} {as : List Answer} (h : s.Settled)
    (houtput : s.machine.output = "") (hus : s.answers limit us = some (as, s')) :
    s'.Settled ∧ s'.machine.output = "" := by
  induction us generalizing s as with
  | nil =>
    cases hus
    exact ⟨h, houtput⟩
  | cons u us ih =>
    obtain ⟨a, ha, hus⟩ := Option.bind_eq_some_iff.1 hus
    obtain ⟨r, hr, heq⟩ := Option.map_eq_some_iff.1 hus
    obtain ⟨r', hrun, rfl⟩ := Option.map_eq_some_iff.1 ha
    cases heq
    have hsettled := h.run hrun
    have htaken : r'.2.takeOutput.2.Settled := ⟨hsettled.heap, hsettled.distances⟩
    exact ih htaken rfl hr

/-! ### Sessions with other references -/

variable {f : Nat → Nat}

theorem Renumbered.shown (h : Renumbered f s s') : s'.shown = s.shown := by
  have htext (v : Value) : s'.machine.heap.text v = s.machine.heap.text v := by
    rw [h.machine]
    exact Heap.text_rename _ _ v
  funext values
  simp only [Session.shown, htext]

theorem Renumbered.takeOutput (h : Renumbered f s s') :
    s'.takeOutput.1 = s.takeOutput.1 ∧ Renumbered f s.takeOutput.2 s'.takeOutput.2 := by
  constructor
  · show s'.machine.output = s.machine.output
    rw [h.machine]
    rfl
  · refine ⟨h.injective, ?_, h.distances, h.le, h.next⟩
    show { s'.machine with output := "" } = _
    rw [h.machine]
    rfl

theorem Renumbered.answers (h : Renumbered f s s') (limit : Nat) (us : List (List UInt8)) :
    (s'.answers limit us).map Prod.fst = (s.answers limit us).map Prod.fst := by
  induction us generalizing s s' with
  | nil => rfl
  | cons u us ih =>
    have hrun := h.run limit u
    rw [Session.answers, Session.answers, answer, answer]
    generalize s.run limit u = r at hrun
    generalize s'.run limit u = r' at hrun
    cases hrun with
    | none => rfl
    | @some r r' hr =>
      obtain ⟨hresult, hr⟩ := hr
      obtain ⟨houtput, htaken⟩ := hr.takeOutput
      simp only [Option.map_some, Option.bind_some, hresult, hr.shown, houtput]
      have hrest := congrArg (Option.map (Answer.mk (r'.1.map r.2.shown) r.2.takeOutput.1 :: ·))
        (ih htaken)
      rw [Option.map_map, Option.map_map] at hrest
      rw [Option.map_map, Option.map_map]
      exact hrest

/-! ### Units that are rejected -/

/-- A unit that is rejected changes nothing but the distances of its own references. -/
theorem touched_static {limit : Nat} {source : List UInt8} {d : Diagnostic}
    (h : s.run limit source = some (.error d, s')) (hd : d.isStatic) : Touched s s' := by
  have hparse := touched_parse source s
  unfold Session.run at h
  split at h
  · next heq =>
    rw [heq] at hparse
    cases h
    exact hparse
  · next program s₁ heq =>
    have hresolve := touched_resolve heq
    split at h
    · next heq' =>
      rw [heq'] at hresolve
      cases h
      exact hresolve
    · unfold Session.interpret at h
      split at h
      · cases h
      · next outcome m _ =>
        rcases outcome with fault | values
        · cases h
          cases hd
        · cases h

end Session

theorem insertIdx_length {α : Type} (as rest : List α) (a : α) :
    (as ++ rest).insertIdx as.length a = as ++ a :: rest := by
  induction as with
  | nil => rfl
  | cons b as ih => exact congrArg (b :: ·) ih

/-- A unit that is rejected before it runs writes nothing and changes nothing but distances, and the
other units of the session give what they give without it. -/
theorem rejected_unit_leaves_session {time : Float} {limit : Nat} {us : List (List UInt8)}
    {bad : List UInt8} {as : List Answer} {s s' : Session} {d : Diagnostic}
    (hus : (Session.start time).answers limit us = some (as, s))
    (hbad : s.run limit bad = some (.error d, s')) (hd : d.isStatic) :
    s'.machine = { s.machine with distances := s'.machine.distances } ∧
      ∀ vs, ((Session.start time).answers limit (us ++ bad :: vs)).map Prod.fst =
        ((Session.start time).answers limit (us ++ vs)).map fun r =>
          r.1.insertIdx us.length ⟨.error d, ""⟩ := by
  obtain ⟨hsettled, houtput⟩ := (Session.settled_start time).answers rfl hus
  have htouched := Session.touched_static hbad hd
  have hrenumbered := htouched.renumbered hsettled (hsettled.run hbad)
  refine ⟨htouched.machine, fun vs => ?_⟩
  have houtput' : s'.machine.output = "" := by
    rw [htouched.machine]
    exact houtput
  have hanswer : s.answer limit bad = some (⟨.error d, ""⟩, s') := by
    rw [Session.answer, hbad, Option.map_some, Session.takeOutput_of_output houtput']
    rfl
  have hinsert (rest : List Answer) :
      (as ++ rest).insertIdx us.length ⟨.error d, ""⟩ = as ++ ⟨.error d, ""⟩ :: rest := by
    rw [← Session.length_answers hus]
    exact insertIdx_length as rest _
  have hvs := congrArg (Option.map fun rest => as ++ ⟨.error d, ""⟩ :: rest)
    (hrenumbered.answers limit vs)
  simp only [Session.answers_append, hus, Option.bind_some, Session.answers, hanswer,
    Option.map_map, Function.comp_def, hinsert] at hvs ⊢
  exact hvs

/-- A function with a local variable. -/
def localUnit : List UInt8 :=
  "fun f() \x7b var a = 1; return a; \x7d".toUTF8.toList

/-- A block that reads a local variable and then misuses another one. -/
def misuseUnit : List UInt8 :=
  "\x7b var a = 2; print a; \x7b var b = b; \x7d \x7d".toUTF8.toList

/-- The unit in the middle is rejected after a distance was recorded, which is that of its own
variable; the function from before and the block after it find theirs. -/
theorem rejected_unit_leaves_session_midway :
    ∃ as s s' d,
      (Session.start 0).answers 99 [localUnit] = some (as, s) ∧
      s.run 99 misuseUnit = some (.error d, s') ∧ d.isStatic ∧
      s'.machine.distances.get? 1 ≠ s.machine.distances.get? 1 ∧
      s'.machine = { s.machine with distances := s'.machine.distances } ∧
      ((Session.start 0).answers 99 ([localUnit] ++ misuseUnit ::
          ["f(); \x7b var c = 3; print c; \x7d".toUTF8.toList])).map Prod.fst =
        ((Session.start 0).answers 99 ([localUnit] ++
          ["f(); \x7b var c = 3; print c; \x7d".toUTF8.toList])).map fun r =>
            r.1.insertIdx 1 ⟨.error d, ""⟩ := by
  have h : (((Session.start 0).answers 99 [localUnit]).bind fun a =>
      (a.2.run 99 misuseUnit).bind fun r => (failure? r.1).map fun d =>
        (d.isStatic, r.2.machine.distances.get? 1, a.2.machine.distances.get? 1)) =
      some (true, some 0, none) := by
    decide +kernel
  obtain ⟨⟨as, s⟩, hus, h⟩ := Option.bind_eq_some_iff.1 h
  obtain ⟨⟨result, s'⟩, hbad, h⟩ := Option.bind_eq_some_iff.1 h
  obtain ⟨d, hfailure, h⟩ := Option.map_eq_some_iff.1 h
  cases result with
  | ok values => cases hfailure
  | error d =>
    cases hfailure
    obtain ⟨hd, hrecorded⟩ := Prod.mk.inj h
    obtain ⟨hafter, hbefore⟩ := Prod.mk.inj hrecorded
    obtain ⟨hmachine, hvs⟩ := rejected_unit_leaves_session hus hbad hd
    refine ⟨as, s, s', d, hus, hbad, hd, ?_, hmachine, hvs _⟩
    dsimp only at hafter hbefore
    rw [hafter, hbefore]
    exact nofun

end TreeWalk
