import Mathlib
import TreeWalk.Proofs.Equality

/-!
# Equality as a relation

Equality is symmetric. It is neither reflexive nor transitive: what is not a number is not equal to
itself, and two machine words can both be equal to a floating point number that is rounded from them.
Only floating point numbers are to blame. Values without them, at any depth of arrays in arrays, are
divided into classes by equality, and values of two types are never in one class
(`Heap.same_divides_values`).
-/

namespace TreeWalk

theorem Elementwise.symm {α : Type} {related : α → α → Prop} {l l' : List α}
    (h : Elementwise related l l') : Elementwise (fun a b => related b a) l' l :=
  ⟨h.1.symm, fun i a b ha hb => h.2 i b a hb ha⟩

namespace Heap

variable {h : Heap} {a b c : Value} {r s : Nat}

/-! ### Symmetry -/

/-- By induction on the fuel, which the elements of an array have less of. -/
theorem sameWithin_symm (h : Heap) (fuel : Nat) (a b : Value) :
    h.sameWithin fuel a b = h.sameWithin fuel b a := by
  induction fuel generalizing a b with
  | zero => cases a <;> cases b <;> first | rfl | exact BEq.comm
  | succ fuel ih =>
    by_cases harrays : ∃ r s, a = .array r ∧ b = .array s
    · obtain ⟨r, s, rfl, rfl⟩ := harrays
      have hone (r s : Nat) (h₁ : h.sameWithin (fuel + 1) (.array r) (.array s) = true) :
          h.sameWithin (fuel + 1) (.array s) (.array r) = true := by
        rw [sameWithin_array] at h₁ ⊢
        rcases h₁ with rfl | helements
        · exact .inl rfl
        · refine .inr (helements.symm.imp fun v _ w _ hvw => ?_)
          rw [ih v w]
          exact hvw
      exact Bool.eq_iff_iff.2 ⟨hone r s, hone s r⟩
    · cases a <;> cases b <;> first | rfl | exact BEq.comm | exact absurd ⟨_, _, rfl, rfl⟩ harrays

/-! ### Values without floating point numbers -/

/-- A floating point number is somewhere in the value. -/
inductive ContainsFloat (h : Heap) : Value → Prop
  | number (x : Float) : ContainsFloat h (.float x)
  | element {r : Nat} {v : Value} (hmem : v ∈ h.array r) (hv : ContainsFloat h v) :
    ContainsFloat h (.array r)

theorem containsFloat_array :
    h.ContainsFloat (.array r) ↔ ∃ v ∈ h.array r, h.ContainsFloat v := by
  constructor
  · intro hr
    cases hr with
    | element hmem hv => exact ⟨_, hmem, hv⟩
  · rintro ⟨v, hmem, hv⟩
    exact .element hmem hv

theorem containsFloat_of_not_array (ha : ∀ r, a ≠ .array r) :
    h.ContainsFloat a ↔ ∃ x, a = .float x := by
  constructor
  · intro hfloat
    cases hfloat with
    | number x => exact ⟨x, rfl⟩
    | element => exact absurd rfl (ha _)
  · rintro ⟨x, rfl⟩
    exact .number x

/-- The values that hold no floating point number, at any depth. -/
abbrev Floatless (h : Heap) : Type :=
  { a : Value // ¬h.ContainsFloat a }

theorem not_containsFloat_of_mem (hr : ¬h.ContainsFloat (.array r)) (ha : a ∈ h.array r) :
    ¬h.ContainsFloat a :=
  fun hfloat => hr (.element ha hfloat)

/-- Apart from arrays, such a value is equal to itself and to nothing else. -/
theorem sameWithin_iff_eq {fuel : Nat} (harray : ∀ r, a ≠ .array r) (ha : ¬h.ContainsFloat a)
    (hb : ¬h.ContainsFloat b) : h.sameWithin fuel a b = true ↔ a = b := by
  have hfloat (x : Float) : a ≠ .float x := fun heq => ha (heq ▸ .number x)
  have hfloat' (x : Float) : b ≠ .float x := fun heq => hb (heq ▸ .number x)
  cases a with
  | array r => exact absurd rfl (harray r)
  | float x => exact absurd rfl (hfloat x)
  | _ =>
    cases b with
    | float x => exact absurd rfl (hfloat' x)
    | _ => simp [sameWithin, Value.toFloat?]

theorem sameWithin_self (fuel : Nat) (ha : ¬h.ContainsFloat a) :
    h.sameWithin fuel a a = true := by
  by_cases harray : ∃ r, a = .array r
  · obtain ⟨r, rfl⟩ := harray
    cases fuel with
    | zero => exact beq_self_eq_true r
    | succ fuel => exact (sameWithin_array fuel).2 (.inl rfl)
  · exact (sameWithin_iff_eq (fun r heq => harray ⟨r, heq⟩) ha ha).2 rfl

theorem array_of_sameWithin {fuel : Nat} (hsame : h.sameWithin fuel (.array r) b = true) :
    ∃ s, b = .array s := by
  by_contra hnot
  rw [sameWithin_array_of_not_array fun s heq => hnot ⟨s, heq⟩] at hsame
  cases hsame

/-- By induction on the fuel. An array that is shared stands for the other one; where neither side
shares, the elements are compared one by one. -/
theorem sameWithin_trans {fuel : Nat} (ha : ¬h.ContainsFloat a) (hb : ¬h.ContainsFloat b)
    (hc : ¬h.ContainsFloat c) (hab : h.sameWithin fuel a b = true)
    (hbc : h.sameWithin fuel b c = true) : h.sameWithin fuel a c = true := by
  induction fuel generalizing a b c with
  | zero =>
    by_cases harray : ∃ r, a = .array r
    · obtain ⟨r, rfl⟩ := harray
      obtain ⟨s, rfl⟩ := array_of_sameWithin hab
      obtain rfl : r = s := beq_iff_eq.1 hab
      exact hbc
    · obtain rfl := (sameWithin_iff_eq (fun r heq => harray ⟨r, heq⟩) ha hb).1 hab
      exact hbc
  | succ fuel ih =>
    by_cases harray : ∃ r, a = .array r
    · obtain ⟨r, rfl⟩ := harray
      obtain ⟨s, rfl⟩ := array_of_sameWithin hab
      obtain ⟨t, rfl⟩ := array_of_sameWithin hbc
      rcases (sameWithin_array fuel).1 hab with rfl | hrs
      · exact hbc
      rcases (sameWithin_array fuel).1 hbc with rfl | hst
      · exact hab
      refine (sameWithin_array fuel).2 (.inr ⟨hrs.1.trans hst.1, fun i v w hv hw => ?_⟩)
      obtain ⟨u, hu⟩ : ∃ u, (h.array s)[i]? = some u := by
        have hi : i < (h.array s).length := hrs.1 ▸ (List.getElem?_eq_some_iff.1 hv).1
        exact ⟨_, List.getElem?_eq_getElem hi⟩
      have hv' := not_containsFloat_of_mem ha (List.mem_of_getElem? hv)
      have hu' := not_containsFloat_of_mem hb (List.mem_of_getElem? hu)
      have hw' := not_containsFloat_of_mem hc (List.mem_of_getElem? hw)
      exact ih hv' hu' hw' (hrs.2 i v u hv hu) (hst.2 i u w hu hw)
    · obtain rfl := (sameWithin_iff_eq (fun r heq => harray ⟨r, heq⟩) ha hb).1 hab
      exact hbc

theorem type_eq_of_same (ha : ¬h.ContainsFloat a) (hb : ¬h.ContainsFloat b)
    (hsame : h.same a b = true) : a.type = b.type := by
  by_cases harray : ∃ r, a = .array r
  · obtain ⟨r, rfl⟩ := harray
    obtain ⟨s, rfl⟩ := array_of_sameWithin hsame
    rfl
  · rw [(sameWithin_iff_eq (fun r heq => harray ⟨r, heq⟩) ha hb).1 hsame]

/-! ### What equality divides values into -/

/-- Equality is symmetric; among values without floating point numbers it is an equivalence, and no
two of them that differ in type are equal. -/
theorem same_divides_values (h : Heap) :
    (∀ a b, h.same a b = h.same b a) ∧
    Equivalence (fun a b : h.Floatless => h.same a b = true) ∧
    ∀ a b : h.Floatless, a.1.type ≠ b.1.type → h.same a b = false := by
  have hsymm (a b : Value) : h.same a b = h.same b a := h.sameWithin_symm _ a b
  refine ⟨hsymm, ⟨fun a => ?_, fun {a b} hab => ?_, fun {a b c} hab hbc => ?_⟩, fun a b htype => ?_⟩
  · exact sameWithin_self _ a.2
  · rw [hsymm]
    exact hab
  · exact sameWithin_trans a.2 b.2 c.2 hab hbc
  · exact Bool.eq_false_iff.2 fun hsame => htype (type_eq_of_same a.2 b.2 hsame)

example : Heap.empty.same (.int 9223372036854775806) (.float 9223372036854775808) = true ∧
    Heap.empty.same (.float 9223372036854775808) (.int 9223372036854775807) = true ∧
    Heap.empty.same (.int 9223372036854775806) (.int 9223372036854775807) = false := by
  decide +kernel

/-- Arrays in arrays with an instance, a class and functions in them: the last two are made of the
same, and share some of it. -/
def nested : Heap where
  scopes := Scopes.root
  functions := #[default]
  classes := #[⟨"A", []⟩]
  instances := #[⟨0, []⟩]
  arrays := #[[.int 1, .nil], [.int 1, .nil],
    [.array 0, .instance_ 0, .class_ 0, .function 0, .builtin .clock],
    [.array 1, .instance_ 0, .class_ 0, .function 0, .builtin .clock]]

theorem nested_floatless : ¬nested.ContainsFloat (.array 2) ∧ ¬nested.ContainsFloat (.array 3) := by
  simp [nested, containsFloat_array, containsFloat_of_not_array, Heap.array]

theorem same_divides_values_nested :
    nested.same (.array 2) (.array 3) = true ∧ nested.same (.array 3) (.array 2) = true ∧
      nested.same (.array 2) (.instance_ 0) = false := by
  obtain ⟨hsymm, hequivalence, htypes⟩ := nested.same_divides_values
  obtain ⟨h₂, h₃⟩ := nested_floatless
  have hinstance : ¬nested.ContainsFloat (.instance_ 0) := nofun
  have h₂₃ : nested.same (.array 2) (.array 3) = true := by decide +kernel
  exact ⟨h₂₃, hequivalence.symm (x := ⟨.array 2, h₂⟩) (y := ⟨.array 3, h₃⟩) h₂₃,
    htypes ⟨.array 2, h₂⟩ ⟨.instance_ 0, hinstance⟩ nofun⟩

end Heap

end TreeWalk
