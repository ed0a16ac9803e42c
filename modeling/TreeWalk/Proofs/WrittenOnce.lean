import TreeWalk.Proofs.Numbering
import TreeWalk.Proofs.Recordings
import TreeWalk.Proofs.Settled
import TreeWalk.Proofs.Timeline

/-!
# Distances that are written once

All units of a session write to one table of distances. No two nodes of all the trees that were ever read
carry the same reference, also where a unit was refused; what a unit records stands under references of
its own, each recorded once at most and not recorded before; and whatever happens later leaves the
distances under references that were given out as they are. So a function that is kept from an earlier
unit finds its variables at the same distances for ever (`Session.distances_written_once`).
-/

namespace TreeWalk

/-! ### The functions of a heap -/

/-- The heap holds the function, on its own or as a method of a class. -/
inductive Heap.Holds (h : Heap) (f : Function) : Prop
  | function (hf : f ∈ h.functions)
  | method {k : Class} {name : String} (hk : k ∈ h.classes) (hf : k.methods.get? name = some f)

theorem Heap.Grows.holds {h h' : Heap} {f : Function} (hg : h.Grows h') (hf : h.Holds f) :
    h'.Holds f := by
  cases hf with
  | function hf => exact .function (Array.mem_toList_iff.1 (hg.functions.subset (Array.mem_toList_iff.2 hf)))
  | method hk hf =>
    exact .method (Array.mem_toList_iff.1 (hg.classes.subset (Array.mem_toList_iff.2 hk))) hf

theorem eq_of_map_eq_self {α : Type} {g : α → α} {as : List α} (h : as.map g = as) :
    ∀ a ∈ as, g a = a :=
  List.map_inj_left.1 (h.trans (List.map_id as).symm)

/-- The functions of a settled heap carry references that have been given out. -/
theorem Heap.Settled.references {n : Nat} {h : Heap} (hh : h.Settled n) {f : Function}
    (hf : h.Holds f) : ∀ r ∈ f.decl.references, r < n := by
  -- renames all other references
  let g : Nat → Nat := fun r => if r < n then r else r + 1
  have hg : Above n g := by
    refine ⟨fun r hr => if_pos hr, fun r hr => ?_⟩
    show n ≤ if r < n then r else r + 1
    rw [if_neg (Nat.not_lt.2 hr)]
    exact Nat.le_succ_of_le hr
  have hrename := hh g hg
  have hfixed : f.rename (.references g) = f := by
    cases hf with
    | function hf =>
      have hfunctions := congrArg (·.functions.toList) hrename
      simp only [Heap.rename, Array.toList_map] at hfunctions
      exact eq_of_map_eq_self hfunctions f (Array.mem_toList_iff.2 hf)
    | @method k name hk hf =>
      have hclasses := congrArg (·.classes.toList) hrename
      simp only [Heap.rename, Array.toList_map] at hclasses
      have hmethods := congrArg (·.methods.get? name)
        (eq_of_map_eq_self hclasses k (Array.mem_toList_iff.2 hk))
      simp only [Class.rename, Table.get?_mapEntries, hf, Option.map_some] at hmethods
      exact Option.some.inj hmethods
  have hreferences := congrArg (·.decl.references) hfixed
  simp only [Function.rename, FunctionDecl.references_rename] at hreferences
  intro r hr
  have hr : g r = r := eq_of_map_eq_self hreferences r hr
  by_contra hle
  simp only [g, if_neg hle] at hr
  omega

namespace Session

open Relation (ReflTransGen)

variable {s s₁ s' : Session} {source : List UInt8} {program past : List Stmt} {limit : Nat}
  {time : Float}

/-! ### The trees that were read -/

/-- The trees of all declarations of a source that are read to their end, also if the source is
refused. -/
def trees (source : List UInt8) (s : Session) : List Stmt :=
  match Lexer.tokens source with
  | .error _ => []
  | .ok tokens => (Cursor.start tokens s.nextReference).trees tokens.length

theorem between_trees (source : List UInt8) (s : Session) : Between s.nextReference
    (referencesStmts (s.trees source)) (s.parse source).2.nextReference := by
  rw [trees, parse]
  cases Lexer.tokens source with
  | error f => exact .none (Nat.le_refl _)
  | ok tokens =>
    have hbetween := Cursor.between_trees tokens.length (Cursor.start tokens s.nextReference)
    dsimp only
    cases hparse : parseProgram tokens s.nextReference with
    | mk outcome next =>
      obtain rfl : _ = next := congrArg Prod.snd hparse
      cases outcome with
      | error r => exact hbetween
      | ok program => exact hbetween

theorem trees_of_parse (h : s.parse source = (.ok program, s')) : s.trees source = program := by
  rw [parse] at h
  rw [trees]
  cases htokens : Lexer.tokens source with
  | error f =>
    rw [htokens] at h
    cases h
  | ok tokens =>
    rw [htokens] at h
    dsimp only at h ⊢
    cases hparse : parseProgram tokens s.nextReference with
    | mk outcome next =>
      rw [hparse] at h
      cases outcome with
      | error r => cases h
      | ok ss =>
        cases h
        exact Cursor.trees_of_collect (congrArg Prod.fst hparse)

/-- The session has run units, and `trees` were read in them, in order. -/
inductive HasRead (time : Float) : List Stmt → Session → Prop
  | start : HasRead time [] (start time)
  | run {limit : Nat} {source : List UInt8} {trees : List Stmt} {s s' : Session}
      {result : Except Diagnostic (List (Option Value))} (h : HasRead time trees s)
      (hr : s.run limit source = some (result, s')) : HasRead time (trees ++ s.trees source) s'

theorem HasRead.reachable (h : HasRead time past s) : Reachable time s := by
  induction h with
  | start => exact .start
  | run _ hr ih => exact .run ih hr

/-- Checking and running give out no references. -/
theorem nextReference_run {result : Except Diagnostic (List (Option Value))}
    (h : s.run limit source = some (result, s')) :
    s'.nextReference = (s.parse source).2.nextReference := by
  unfold run at h
  split at h
  · next hparse =>
    cases h
    rw [hparse]
  · next program s₁ hparse =>
    have hnext := nextReference_resolve program s₁
    rw [hparse]
    split at h
    · next hresolve =>
      rw [hresolve] at hnext
      cases h
      exact hnext
    · next hresolve =>
      rw [hresolve] at hnext
      unfold interpret at h
      split at h
      · cases h
      · cases h
        exact hnext

theorem HasRead.between (h : HasRead time past s) :
    Between 0 (referencesStmts past) s.nextReference := by
  induction h with
  | start => exact .none (Nat.le_refl _)
  | @run limit source trees s s' result _ hr ih =>
    rw [referencesStmts_append, nextReference_run hr]
    exact ih.append (s.between_trees source)

/-! ### What a program records -/

/-- Checking a program records distances under its references, each once at most. -/
theorem resolve_records (program : List Stmt) (s : Session) :
    ∃ done, done <+: (Part.stmts program).recordings .top ∧
      (s.resolve program).2.machine.distances = s.machine.distances.replay done ∧
      ((s.resolve program).1 = .ok () → done = (Part.stmts program).recordings .top) := by
  obtain ⟨done, hprefix, hdistances, hall⟩ :=
    (Part.stmts program).records .top s.machine.distances
  refine ⟨done, hprefix, ?_, fun hok => ?_⟩
  · rw [resolve_eq]
    exact hdistances
  · unfold resolve at hok
    split at hok
    · cases hok
    · next hpassed => exact hall () _ hpassed

/-! ### What happens later -/

/-- The references below this one have been given out. -/
def Stage.nextReference : Stage → Nat
  | .between s => s.nextReference
  | .running _ _ n => n

theorem Stage.nextReference_before (m : Machine) (n : Nat) (ss : List Stmt) :
    (before m n ss).nextReference = n := by
  cases ss <;> rfl

/-- Reading and checking a unit records distances under new references only. -/
theorem distances_of_checked (hp : s.parse source = (.ok program, s₁)) (hr : (s₁.resolve program).2 = s') :
    s.nextReference ≤ s'.nextReference ∧
      ∀ r < s.nextReference, s'.machine.distances.get? r = s.machine.distances.get? r := by
  obtain ⟨hmachine, -, hrefs⟩ := parse_ok hp
  subst hr
  rw [nextReference_resolve]
  refine ⟨hrefs.le, fun r hr => ?_⟩
  rw [get?_resolve fun hmem => Nat.lt_irrefl r (Nat.lt_of_lt_of_le hr (hrefs.bounds r hmem).1), hmachine]

/-- No reference is given out twice, and the distances under those that were given out stay. -/
theorem Next.distances {c c' : Stage} (h : Next c c') : c.nextReference ≤ c'.nextReference ∧
    ∀ r < c.nextReference, c'.machine.distances.get? r = c.machine.distances.get? r := by
  cases h with
  | @unread source s s' d hp =>
    have hnext := nextReference_parse source s
    have hmachine := machine_parse source s
    rw [hp] at hnext hmachine
    exact ⟨hnext, fun r _ => congrArg (·.distances.get? r) hmachine⟩
  | @rejected source s s₁ s' program d hp hr =>
    exact distances_of_checked hp (congrArg Prod.snd hr)
  | @accepted source s s' program ha =>
    obtain ⟨s₁, hp, hr⟩ := accept?_eq ha
    show s.nextReference ≤ (Stage.before _ _ _).nextReference ∧ _
    rw [Stage.nextReference_before, Stage.machine_before]
    exact distances_of_checked hp (congrArg Prod.snd hr)
  | @step st rest n hrunning =>
    exact ⟨Nat.le_refl _, fun r _ => congrArg (Distances.get? · r) (st.steps_fixed 1).2⟩
  | done hending hok =>
    rw [Stage.nextReference_before, Stage.machine_before]
    exact ⟨Nat.le_refl _, fun _ _ => rfl⟩
  | failed hending hfails => exact ⟨Nat.le_refl _, fun _ _ => rfl⟩

theorem distances_of_reaches {c c' : Stage} (h : ReflTransGen Next c c') :
    c.nextReference ≤ c'.nextReference ∧
      ∀ r < c.nextReference, c'.machine.distances.get? r = c.machine.distances.get? r := by
  induction h with
  | refl => exact ⟨Nat.le_refl _, fun _ _ => rfl⟩
  | tail _ hnext ih =>
    obtain ⟨hle, hsame⟩ := hnext.distances
    exact ⟨Nat.le_trans ih.1 hle, fun r hr =>
      (hsame r (Nat.lt_of_lt_of_le hr ih.1)).trans (ih.2 r hr)⟩

/-- In a session, no two nodes of all the trees that were read carry the same reference, those of the
unit at hand included. Checking the unit records its distances one after the other, under different
references that had no distance before; if it is refused, a first part of them. And at every later stage
all distances are where they were, and under the references of earlier trees there are no others; so
every function that the heap holds is still there, with the same distances for all its references. The
same holds of the unit at hand once it has been checked. -/
theorem distances_written_once (h : HasRead time past s) (source : List UInt8) :
    (referencesStmts (past ++ s.trees source)).Nodup ∧
    (∀ program s₁, s.parse source = (.ok program, s₁) → s.trees source = program ∧
      (((Part.stmts program).recordings .top).map Prod.fst).Nodup ∧
      (∀ entry ∈ (Part.stmts program).recordings .top, s.machine.distances.get? entry.1 = none) ∧
      ∃ done, done <+: (Part.stmts program).recordings .top ∧
        (s₁.resolve program).2.machine.distances = s.machine.distances.replay done ∧
        ((s₁.resolve program).1 = .ok () → done = (Part.stmts program).recordings .top)) ∧
    (∀ c, ReflTransGen Next (.between s) c →
      (∀ r x, s.machine.distances.get? r = some x → c.machine.distances.get? r = some x) ∧
      (∀ r ∈ referencesStmts past, c.machine.distances.get? r = s.machine.distances.get? r) ∧
      ∀ f, s.machine.heap.Holds f → c.machine.heap.Holds f ∧
        ∀ r ∈ f.decl.references, c.machine.distances.get? r = s.machine.distances.get? r) ∧
    (∀ program s₁, s.accept? source = some (program, s₁) →
      ∀ c, ReflTransGen Next (.before s₁.machine s₁.nextReference program) c →
        ∀ r ∈ referencesStmts (past ++ program),
          c.machine.distances.get? r = s₁.machine.distances.get? r) ∧
    ∀ fuel, Production.AllSteady fuel ∧ Production.AllNumbered fuel := by
  have hbetween : Between 0 (referencesStmts (past ++ s.trees source))
      (s.parse source).2.nextReference := by
    rw [referencesStmts_append]
    exact h.between.append (s.between_trees source)
  have hsettled := h.reachable.settled
  refine ⟨hbetween.nodup, fun program s₁ hp => ?_, fun c hc => ?_, fun program s₁ ha c hc => ?_,
    fun fuel => ⟨Production.allSteady fuel, Production.allNumbered fuel⟩⟩
  · obtain ⟨hmachine, -, hrefs⟩ := parse_ok hp
    refine ⟨trees_of_parse hp, @Part.nodup_recordings (.stmts program) hrefs.nodup .top,
      fun entry hentry => ?_, ?_⟩
    · have hmem : entry.1 ∈ referencesStmts program :=
        ((Part.stmts program).recordings_subperm .top).subset (List.mem_map_of_mem hentry)
      exact hsettled.distances _ (hrefs.bounds _ hmem).1
    · rw [← hmachine]
      exact resolve_records program s₁
  · obtain ⟨-, hsame⟩ := distances_of_reaches hc
    refine ⟨fun r x hx => ?_, fun r hr => hsame r (h.between.bounds r hr).2, fun f hf => ⟨?_, ?_⟩⟩
    · have hr : r < s.nextReference := by
        by_contra hle
        rw [hsettled.distances r (Nat.le_of_not_lt hle)] at hx
        cases hx
      rw [hsame r hr, ← hx]
      rfl
    · exact (h.reachable.reached.keeps hc).1.holds hf
    · exact fun r hr => hsame r (hsettled.heap.references hf r hr)
  · obtain ⟨s₀, hp, hr⟩ := accept?_eq ha
    have hnext := nextReference_resolve program s₀
    obtain ⟨-, hsame⟩ := distances_of_reaches hc
    rw [Stage.nextReference_before, Stage.machine_before] at hsame
    intro r hmem
    refine hsame r ?_
    rw [hr] at hnext
    rw [trees_of_parse hp, hp] at hbetween
    rw [hnext]
    exact (hbetween.bounds r hmem).2

/-- A closure that keeps the argument of the function around it. -/
def keptUnit : List UInt8 :=
  "fun f(a) \x7b return fun () \x7b return a; \x7d; \x7d var g = f(1);".toUTF8.toList

/-- A function that is read to its end and refused for a fault inside of it. -/
def refusedUnit : List UInt8 :=
  "fun h(b) \x7b b; b + ); a = b; \x7d".toUTF8.toList

def callingUnit : List UInt8 :=
  "\x7b var x = g(); print x; \x7d".toUTF8.toList

/-- The references 3 and 4 were given out to nodes that no tree carries; the closure looks for its variable
three scopes out for ever. -/
theorem distances_written_once_after_refusal :
    ∃ past s, HasRead 0 past s ∧ referencesStmts past = [0, 1, 2, 5, 6] ∧
      referencesStmts (s.trees callingUnit) = [7, 8] ∧
      (referencesStmts (past ++ s.trees callingUnit)).Nodup ∧
      s.machine.distances.get? 0 = some 3 ∧
      ∀ c, ReflTransGen Next (.between s) c → c.machine.distances.get? 0 = some 3 := by
  have h : (((start 0).run 99 keptUnit).bind fun r => (r.2.run 99 refusedUnit).map fun r' =>
      (referencesStmts ([] ++ (start 0).trees keptUnit ++ r.2.trees refusedUnit),
        referencesStmts (r'.2.trees callingUnit), r'.2.machine.distances.get? 0)) =
      some ([0, 1, 2, 5, 6], [7, 8], some 3) := by
    decide +kernel
  obtain ⟨⟨result, s⟩, hrun, h⟩ := Option.bind_eq_some_iff.1 h
  obtain ⟨⟨result', s'⟩, hrun', h⟩ := Option.map_eq_some_iff.1 h
  simp only [Prod.mk.injEq] at h
  obtain ⟨hpast, htrees, hdistance⟩ := h
  have hread : HasRead 0 ([] ++ (start 0).trees keptUnit ++ s.trees refusedUnit) s' :=
    .run (.run .start hrun) hrun'
  obtain ⟨hnodup, -, hlater, -⟩ := distances_written_once hread callingUnit
  exact ⟨_, s', hread, hpast, htrees, hnodup, hdistance, fun c hc => (hlater c hc).1 0 3 hdistance⟩

end Session

end TreeWalk
