import Mathlib
import TreeWalk.Proofs.Lasting

/-!
# Equality of arrays

Two arrays are equal if they are one and the same, or else element by element. For the same array the
elements are not looked at, which makes a difference if one of them is not equal to itself, and only
a number that is none is not (`Heap.same_self`). So an array that holds one is equal to itself but not
to a copy of itself, and in all other cases equality is equality of the elements
(`Heap.same_array_iff_elements`). Without such numbers at any depth it is equality of what the arrays
are made of, whichever of them are shared (`Heap.same_iff_matches`).
-/

namespace TreeWalk

/-- Only what is not a number is not equal to itself. -/
theorem beq_self_iff_not_nan (x : Float) : (x == x) = true ↔ x.isNaN = false := by
  rw [Float.beq_self_iff, Float.isNaN_eq_decide_eq_nan, decide_eq_false_iff_not]

/-- Two lists have the same length, and what stands at the same position is related. -/
def Elementwise {α : Type} (related : α → α → Prop) (l l' : List α) : Prop :=
  l.length = l'.length ∧
    ∀ (i : Nat) a b, l[i]? = some a → l'[i]? = some b → related a b

section

variable {α : Type} {related related' : α → α → Prop} {a b : α} {l l' : List α}

theorem elementwise_cons : Elementwise related (a :: l) (b :: l') ↔
    related a b ∧ Elementwise related l l' := by
  constructor
  · rintro ⟨hlen, h⟩
    exact ⟨h 0 a b rfl rfl, Nat.succ.inj hlen, fun i => h (i + 1)⟩
  · rintro ⟨hab, hlen, h⟩
    refine ⟨congrArg (· + 1) hlen, fun i => ?_⟩
    cases i with
    | zero =>
      intro a' b' ha hb
      cases ha
      cases hb
      exact hab
    | succ i => exact h i

theorem isEqv_iff_elementwise {f : α → α → Bool} :
    l.isEqv l' f = true ↔ Elementwise (fun a b => f a b = true) l l' := by
  induction l generalizing l' with
  | nil =>
    cases l' with
    | nil => exact ⟨fun _ => ⟨rfl, nofun⟩, fun _ => rfl⟩
    | cons b l' => exact ⟨nofun, fun h => nomatch h.1⟩
  | cons a l ih =>
    cases l' with
    | nil => exact ⟨nofun, fun h => nomatch h.1⟩
    | cons b l' => rw [List.isEqv, Bool.and_eq_true, ih, elementwise_cons]

theorem Elementwise.imp (h : Elementwise related l l')
    (himp : ∀ a ∈ l, ∀ b ∈ l', related a b → related' a b) : Elementwise related' l l' := by
  refine ⟨h.1, fun i a b ha hb => ?_⟩
  exact himp a (List.mem_of_getElem? ha) b (List.mem_of_getElem? hb) (h.2 i a b ha hb)

theorem elementwise_self : Elementwise related l l ↔ ∀ a ∈ l, related a a := by
  constructor
  · rintro ⟨-, h⟩ a ha
    obtain ⟨i, hi⟩ := List.mem_iff_getElem?.1 ha
    exact h i a a hi hi
  · intro h
    refine ⟨rfl, fun i a b ha hb => ?_⟩
    obtain rfl : a = b := Option.some.inj (ha.symm.trans hb)
    exact h a (List.mem_of_getElem? ha)

end

namespace Heap

variable {h h' : Heap} {v w : Value} {r s : Nat}

/-! ### Enough fuel -/

theorem sameWithin_of_not_array {fuel fuel' : Nat} (hv : ∀ r, v ≠ .array r) :
    h'.sameWithin fuel' v w = h.sameWithin fuel v w := by
  cases v with
  | array r => exact absurd rfl (hv r)
  | _ => cases w <;> simp only [sameWithin]

theorem sameWithin_array_of_not_array {fuel : Nat} (hw : ∀ s, w ≠ .array s) :
    h.sameWithin fuel (.array r) w = false := by
  cases w with
  | array s => exact absurd rfl (hw s)
  | _ => simp only [sameWithin, Value.toFloat?]

theorem sameWithin_array (fuel : Nat) : h.sameWithin (fuel + 1) (.array r) (.array s) = true ↔
    r = s ∨ Elementwise (fun v w => h.sameWithin fuel v w = true) (h.array r) (h.array s) := by
  rw [sameWithin, Bool.or_eq_true, beq_iff_eq, isEqv_iff_elementwise]

/-- The comparison of values that are there does not depend on what is made later, nor on how much
fuel there is beyond what the first of them needs. -/
theorem sameWithin_of_grows (hs : h.Sound) (hg : h.Grows h') {fuel fuel' : Nat} (hv : h.Has v)
    (hw : h.Has w) (hfuel : ∀ r, v = .array r → r < fuel) (hfuel' : ∀ r, v = .array r → r < fuel') :
    h'.sameWithin fuel' v w = true ↔ h.sameWithin fuel v w = true := by
  induction fuel generalizing fuel' v w with
  | zero =>
    have harray : ∀ r, v ≠ .array r := fun r hr => Nat.not_lt_zero r (hfuel r hr)
    rw [sameWithin_of_not_array harray]
  | succ fuel ih =>
    by_cases harray : ∃ r, v = .array r
    · obtain ⟨r, rfl⟩ := harray
      by_cases hother : ∃ s, w = .array s
      · obtain ⟨s, rfl⟩ := hother
        obtain ⟨fuel', rfl⟩ := Nat.exists_eq_succ_of_ne_zero (Nat.ne_zero_of_lt (hfuel' r rfl))
        have hr := hfuel r rfl
        have hr' := hfuel' r rfl
        -- the elements of `r` are earlier arrays, so less fuel is enough for them
        have helements : ∀ v ∈ h.array r, ∀ w ∈ h.array s,
            (h'.sameWithin fuel' v w = true ↔ h.sameWithin fuel v w = true) := by
          intro v hvr w hws
          obtain ⟨hhas, hearlier⟩ := hs.elements r v hvr
          refine ih hhas (hs.elements s w hws).1 (fun r' heq => ?_) (fun r' heq => ?_)
          · have hlt := hearlier r' heq
            omega
          · have hlt := hearlier r' heq
            omega
        rw [sameWithin_array, sameWithin_array, hg.array hv, hg.array hw]
        refine or_congr_right ⟨fun he => ?_, fun he => ?_⟩
        · exact he.imp fun v hvr w hws => (helements v hvr w hws).1
        · exact he.imp fun v hvr w hws => (helements v hvr w hws).2
      · have hnot : ∀ s, w ≠ .array s := fun s heq => hother ⟨s, heq⟩
        rw [sameWithin_array_of_not_array hnot, sameWithin_array_of_not_array hnot]
    · have hnot : ∀ r, v ≠ .array r := fun r heq => harray ⟨r, heq⟩
      rw [sameWithin_of_not_array hnot]

theorem same_of_grows (hs : h.Sound) (hg : h.Grows h') (hv : h.Has v) (hw : h.Has w) :
    h'.same v w = true ↔ h.same v w = true := by
  refine sameWithin_of_grows hs hg hv hw ?_ ?_
  · rintro r rfl
    exact hv
  · rintro r rfl
    exact hv.mono hg

/-! ### One level -/

/-- The elements of two arrays are equal one by one. -/
def SameElements (h : Heap) (r s : Nat) : Prop :=
  Elementwise (fun v w => h.same v w = true) (h.array r) (h.array s)

/-- What is not a number is among the elements. -/
def HoldsNaN (h : Heap) (r : Nat) : Prop :=
  ∃ x, .float x ∈ h.array r ∧ x.isNaN

theorem same_array (hs : h.Sound) (hr : h.Has (.array r)) :
    h.same (.array r) (.array s) = true ↔ r = s ∨ h.SameElements r s := by
  have hsize : r < h.arrays.size := hr
  obtain ⟨fuel, hfuel⟩ := Nat.exists_eq_succ_of_ne_zero (Nat.ne_zero_of_lt hsize)
  have helements : ∀ v ∈ h.array r, ∀ w ∈ h.array s,
      (h.same v w = true ↔ h.sameWithin fuel v w = true) := by
    intro v hvr w hws
    obtain ⟨hhas, hearlier⟩ := hs.elements r v hvr
    refine sameWithin_of_grows hs (Grows.refl h) hhas (hs.elements s w hws).1 ?_ ?_
    · intro r' heq
      have hlt := hearlier r' heq
      omega
    · intro r' heq
      have hlt := hearlier r' heq
      omega
  rw [same, hfuel, sameWithin_array, SameElements]
  refine or_congr_right ⟨fun he => ?_, fun he => ?_⟩
  · exact he.imp fun v hvr w hws => (helements v hvr w hws).2
  · exact he.imp fun v hvr w hws => (helements v hvr w hws).1

/-- A value is equal to itself unless it is not a number. -/
theorem same_self (hs : h.Sound) (hv : h.Has v) :
    h.same v v = true ↔ ∀ x, v = .float x → x.isNaN = false := by
  cases v with
  | array r => exact ⟨nofun, fun _ => (same_array hs hv).2 (.inl rfl)⟩
  | float x =>
    have hx (fuel : Nat) : h.sameWithin fuel (.float x) (.float x) = (x == x) := by
      cases fuel <;> rfl
    rw [same, hx, beq_self_iff_not_nan]
    exact ⟨fun hnan y hy => Value.float.inj hy ▸ hnan, fun hnan => hnan x rfl⟩
  | _ => simp [same, sameWithin]

theorem sameElements_self (hs : h.Sound) : h.SameElements r r ↔ ¬h.HoldsNaN r := by
  rw [SameElements, elementwise_self]
  constructor
  · rintro hsame ⟨x, hx, hnan⟩
    have hself := (same_self hs (hs.elements r _ hx).1).1 (hsame _ hx) x rfl
    rw [hnan] at hself
    cases hself
  · intro hnone v hv
    refine (same_self hs (hs.elements r v hv).1).2 ?_
    rintro x rfl
    cases hx : x.isNaN with
    | false => rfl
    | true => exact absurd ⟨x, hv, hx⟩ hnone

/-- Equality of arrays is equality of their elements, but for an array that holds what is not a
number: that it is equal to itself does not show in its elements. -/
theorem same_array_iff_elements (hs : h.Sound) (hr : h.Has (.array r)) :
    (h.same (.array r) (.array s) = true ↔ h.SameElements r s) ↔ ¬(r = s ∧ h.HoldsNaN r) := by
  rw [same_array hs hr]
  constructor
  · rintro hiff ⟨rfl, hnan⟩
    exact (sameElements_self hs).1 (hiff.1 (.inl rfl)) hnan
  · intro hnot
    refine ⟨?_, .inr⟩
    rintro (rfl | hsame)
    · exact (sameElements_self hs).2 fun hnan => hnot ⟨rfl, hnan⟩
    · exact hsame

/-- A new array with the elements of `r`. -/
def copy (h : Heap) (r : Nat) : Value × Heap :=
  h.newArray (h.array r)

/-- A copy compares like the array it was made of, but for an array that holds what is not a number
and is compared with itself. -/
theorem same_copy_iff (hs : h.Sound) (hr : h.Has (.array r)) (hw : h.Has w) :
    ((h.copy r).2.same (h.copy r).1 w = h.same (.array r) w) ↔
      ¬(w = .array r ∧ h.HoldsNaN r) := by
  have hgrows : h.Grows (h.copy r).2 := h.grows_newArray _
  obtain ⟨hsound, hhas⟩ := hs.newArray fun v hv => (hs.elements r v hv).1
  by_cases harray : ∃ s, w = .array s
  · obtain ⟨s, rfl⟩ := harray
    have hne : h.arrays.size ≠ s := Nat.ne_of_gt hw
    have hcopy : (h.copy r).2.same (h.copy r).1 (.array s) = true ↔ h.SameElements r s := by
      refine (same_array hsound hhas).trans ?_
      have helements : (h.copy r).2.array h.arrays.size = h.array r := by
        rw [copy, array_newArray, if_pos rfl]
      show h.arrays.size = s ∨ (h.copy r).2.SameElements h.arrays.size s ↔ _
      rw [or_iff_right hne, SameElements, SameElements, helements, hgrows.array hw]
      have hsame : ∀ v ∈ h.array r, ∀ w ∈ h.array s,
          ((h.copy r).2.same v w = true ↔ h.same v w = true) :=
        fun v hv w hw => same_of_grows hs hgrows (hs.elements r v hv).1 (hs.elements s w hw).1
      exact ⟨fun he => he.imp fun v hv w hw => (hsame v hv w hw).1,
        fun he => he.imp fun v hv w hw => (hsame v hv w hw).2⟩
    rw [Bool.eq_iff_iff, hcopy, Value.array.injEq, @eq_comm _ s r]
    exact Iff.comm.trans (same_array_iff_elements hs hr)
  · have hnot : ∀ s, w ≠ .array s := fun s heq => harray ⟨s, heq⟩
    have hfalse : (h.copy r).2.same (h.copy r).1 w = false := sameWithin_array_of_not_array hnot
    have hfalse' : h.same (.array r) w = false := sameWithin_array_of_not_array hnot
    rw [hfalse, hfalse']
    simp [hnot r]

/-! ### All levels -/

/-- Two values are made of the same: arrays of equally many parts that are made of the same, and
everything else is equal. -/
inductive Matches (h : Heap) : Value → Value → Prop
  | plain {v w : Value} (hv : ∀ r, v ≠ .array r) (hsame : h.same v w = true) : Matches h v w
  | arrays {r s : Nat} (hlength : (h.array r).length = (h.array s).length)
      (helements : ∀ (i : Nat) v w, (h.array r)[i]? = some v → (h.array s)[i]? = some w →
        Matches h v w) : Matches h (.array r) (.array s)

/-- What is not a number is somewhere in the value. -/
inductive ContainsNaN (h : Heap) : Value → Prop
  | number {x : Float} (hx : x.isNaN) : ContainsNaN h (.float x)
  | element {r : Nat} {v : Value} (hmem : v ∈ h.array r) (hv : ContainsNaN h v) :
    ContainsNaN h (.array r)

theorem HoldsNaN.contains (hr : h.HoldsNaN r) : h.ContainsNaN (.array r) := by
  obtain ⟨x, hx, hnan⟩ := hr
  exact .element hx (.number hnan)

theorem same_of_matches (hs : h.Sound) (hv : h.Has v) (hm : h.Matches v w) :
    h.same v w = true := by
  induction hm with
  | plain _ hsame => exact hsame
  | @arrays r s hlength _ ih =>
    refine (same_array hs hv).2 (.inr ⟨hlength, fun i v w hvr hws => ?_⟩)
    exact ih i v w hvr hws (hs.elements r v (List.mem_of_getElem? hvr)).1

theorem array_of_same (hsame : h.same (.array r) w = true) : ∃ s, w = .array s := by
  by_cases hw : ∃ s, w = .array s
  · exact hw
  · rw [same, sameWithin_array_of_not_array fun s heq => hw ⟨s, heq⟩] at hsame
    cases hsame

/-- By induction on the number of the array: its elements are earlier arrays. -/
theorem matches_of_same_below (hs : h.Sound) (bound : Nat) (hbound : ∀ r, v = .array r → r < bound)
    (hv : h.Has v) (hnan : ¬h.ContainsNaN v) (hsame : h.same v w = true) : h.Matches v w := by
  induction bound generalizing v w with
  | zero => exact .plain (fun r hr => Nat.not_lt_zero r (hbound r hr)) hsame
  | succ bound ih =>
    by_cases harray : ∃ r, v = .array r
    · obtain ⟨r, rfl⟩ := harray
      obtain ⟨s, rfl⟩ := array_of_same hsame
      have hiff := (same_array_iff_elements hs hv (s := s)).2 fun hheld => hnan hheld.2.contains
      obtain ⟨hlength, helements⟩ := hiff.1 hsame
      refine .arrays hlength fun i v w hvr hws => ?_
      have hmem : v ∈ h.array r := List.mem_of_getElem? hvr
      obtain ⟨hhas, hearlier⟩ := hs.elements r v hmem
      refine ih (fun r' heq => ?_) hhas (fun hin => hnan (.element hmem hin))
        (helements i v w hvr hws)
      have hlt := hearlier r' heq
      have hr := hbound r rfl
      omega
    · exact .plain (fun r heq => harray ⟨r, heq⟩) hsame

/-- Where all numbers are numbers, it does not matter which arrays are shared. -/
theorem same_iff_matches (hs : h.Sound) (hv : h.Has v) (hnan : ¬h.ContainsNaN v) :
    h.same v w = true ↔ h.Matches v w := by
  constructor
  · refine matches_of_same_below hs h.arrays.size ?_ hv hnan
    rintro r rfl
    exact hv
  · exact same_of_matches hs hv

/-! ### What equality says -/

/-- Arrays whose elements are equal are equal. The converse holds, and copies are equal to what their
originals are equal to, but where an array that holds what is not a number is compared with itself.
Arrays without such numbers at any depth are equal if they are made of the same. -/
theorem array_equality (hs : h.Sound) (hr : h.Has (.array r)) :
    (h.SameElements r s → h.same (.array r) (.array s) = true) ∧
    ((h.same (.array r) (.array s) = true ↔ h.SameElements r s) ↔ ¬(r = s ∧ h.HoldsNaN r)) ∧
    (∀ w, h.Has w → ((h.copy r).2.same (h.copy r).1 w = h.same (.array r) w ↔
      ¬(w = .array r ∧ h.HoldsNaN r))) ∧
    (¬h.ContainsNaN (.array r) →
      (h.same (.array r) (.array s) = true ↔ h.Matches (.array r) (.array s))) :=
  ⟨fun hsame => (same_array hs hr).2 (.inr hsame), same_array_iff_elements hs hr,
    fun _ hw => same_copy_iff hs hr hw, same_iff_matches hs hr⟩

end Heap

/-- One array, which holds what is not a number. -/
def nanHeap : Heap := (Heap.empty.newArray [.float (0 / 0)]).2

theorem sound_nanHeap : nanHeap.Sound ∧ nanHeap.Has (.array 0) := by
  refine Heap.sound_empty.newArray ?_
  intro v hv
  rw [List.mem_singleton.1 hv]
  trivial

theorem holdsNaN_nanHeap : nanHeap.HoldsNaN 0 := by
  have hnan : (0 / 0 : Float).isNaN = true := by decide +kernel
  exact ⟨0 / 0, List.mem_singleton.2 rfl, hnan⟩

/-- The array is not equal to its copy, though it is to itself. -/
theorem array_equality_nanHeap : nanHeap.Sound ∧ nanHeap.Has (.array 0) ∧
    (nanHeap.copy 0).2.same (nanHeap.copy 0).1 (.array 0) ≠ nanHeap.same (.array 0) (.array 0) := by
  obtain ⟨hs, hr⟩ := sound_nanHeap
  obtain ⟨-, -, hcopy, -⟩ := Heap.array_equality (s := 0) hs hr
  exact ⟨hs, hr, fun hsame => (hcopy _ hr).1 hsame ⟨rfl, holdsNaN_nanHeap⟩⟩

def nanSource : List UInt8 :=
  "var a = [0 / 0]; print a == a; print a[0] == a[0]; print a == array(a[0]);".toUTF8.toList

/-- An array is equal to itself, though neither its element is nor a new array with the element. -/
theorem array_equal_without_elements :
    (nanHeap.Sound ∧ nanHeap.Has (.array 0) ∧ nanHeap.same (.array 0) (.array 0) = true ∧
      ¬nanHeap.SameElements 0 0) ∧
    ((Session.start 0).run 99 nanSource).map (fun r => r.2.machine.output) =
      some "true\nfalse\nfalse\n" := by
  obtain ⟨hs, hr⟩ := sound_nanHeap
  refine ⟨⟨hs, hr, (Heap.same_array hs hr).2 (.inl rfl), ?_⟩, by decide +kernel⟩
  exact fun hsame => (Heap.sameElements_self hs).1 hsame holdsNaN_nanHeap

end TreeWalk
