import TreeWalk.Proofs.History

/-!
# Texts last

Once a value is there, its text stays the same for the rest of the session: functions, classes,
arrays and the classes of instances are made and never changed (`Heap.Grows`), a value refers to
nothing that has yet to be made (`Heap.Has`), and an array holds earlier arrays only
(`Heap.Sound`), so that the text of a value is found in the part of the heap that was there when the
value was (`Heap.text_of_grows`).
-/

namespace TreeWalk

namespace Heap

variable {h h' h'' : Heap} {v w : Value}

/-- What the value refers to has been made. -/
def Has (h : Heap) : Value → Prop
  | .array r => r < h.arrays.size
  | .function r => r < h.functions.size
  | .class_ r => r < h.classes.size
  | .instance_ r => r < h.instances.size
  | _ => True

/-- Things were added, and fields of instances may have changed. -/
structure Grows (h h' : Heap) : Prop where
  functions : h.functions.toList <+: h'.functions.toList
  classes : h.classes.toList <+: h'.classes.toList
  instances : h.instances.toList.map Instance.class_ <+: h'.instances.toList.map Instance.class_
  arrays : h.arrays.toList <+: h'.arrays.toList

/-- Values refer to what has been made, and arrays hold earlier arrays only. -/
structure Sound (h : Heap) : Prop where
  scopes : ∀ e x v, h.scopes.here? e x = some v → h.Has v
  instances : ∀ r, r < h.instances.size → (h.instance_ r).class_ < h.classes.size
  fields : ∀ r x v, (h.instance_ r).fields.get? x = some v → h.Has v
  elements : ∀ r, ∀ v ∈ h.array r, h.Has v ∧ ∀ r', v = .array r' → r' < r

/-! ### Heaps that grow -/

theorem Grows.refl (h : Heap) : h.Grows h :=
  ⟨List.prefix_rfl, List.prefix_rfl, List.prefix_rfl, List.prefix_rfl⟩

theorem Grows.trans (hg : h.Grows h') (hg' : h'.Grows h'') : h.Grows h'' :=
  ⟨hg.functions.trans hg'.functions, hg.classes.trans hg'.classes,
    hg.instances.trans hg'.instances, hg.arrays.trans hg'.arrays⟩

theorem Has.mono (hv : h.Has v) (hg : h.Grows h') : h'.Has v := by
  cases v with
  | array r => exact Nat.lt_of_lt_of_le hv hg.arrays.length_le
  | function r => exact Nat.lt_of_lt_of_le hv hg.functions.length_le
  | class_ r => exact Nat.lt_of_lt_of_le hv hg.classes.length_le
  | instance_ r =>
    have hle := hg.instances.length_le
    rw [List.length_map, List.length_map] at hle
    exact Nat.lt_of_lt_of_le hv hle
  | _ => trivial

theorem getElem?_of_grown {α : Type} {a a' : Array α} (ha : a.toList <+: a'.toList) {r : Nat}
    (hr : r < a.size) : a'[r]? = a[r]? := by
  obtain ⟨more, hmore⟩ := ha
  rw [← Array.getElem?_toList, ← Array.getElem?_toList, ← hmore]
  exact List.getElem?_append_left hr

theorem Grows.function (hg : h.Grows h') {r : Nat} (hr : r < h.functions.size) :
    h'.function r = h.function r := by
  rw [Heap.function, Heap.function, getElem?_of_grown hg.functions hr]

theorem Grows.class_ (hg : h.Grows h') {r : Nat} (hr : r < h.classes.size) :
    h'.class_ r = h.class_ r := by
  rw [Heap.class_, Heap.class_, getElem?_of_grown hg.classes hr]

theorem Grows.array (hg : h.Grows h') {r : Nat} (hr : r < h.arrays.size) :
    h'.array r = h.array r := by
  rw [Heap.array, Heap.array, getElem?_of_grown hg.arrays hr]

theorem Grows.instance_ (hg : h.Grows h') {r : Nat} (hr : r < h.instances.size) :
    (h'.instance_ r).class_ = (h.instance_ r).class_ := by
  obtain ⟨more, hmore⟩ := hg.instances
  have hclass (h : Heap) : (h.instance_ r).class_ =
      ((h.instances.toList.map Instance.class_)[r]?).getD (default : Instance).class_ := by
    rw [Heap.instance_, List.getElem?_map, Array.getElem?_toList]
    cases h.instances[r]? <;> rfl
  have hlength : r < (h.instances.toList.map Instance.class_).length := by
    rw [List.length_map]
    exact hr
  rw [hclass h, hclass h', ← hmore, List.getElem?_append_left hlength]

theorem textWithin_of_not_array (hs : h.Sound) (hg : h.Grows h') {fuel fuel' : Nat} (hv : h.Has v)
    (harray : ∀ r, v ≠ .array r) : h'.textWithin fuel' v = h.textWithin fuel v := by
  cases v with
  | array r => exact absurd rfl (harray r)
  | function r => simp only [textWithin, hg.function hv]
  | class_ r => simp only [textWithin, hg.class_ hv]
  | instance_ r =>
    have hclass := hs.instances r hv
    simp only [textWithin, classOf, hg.instance_ hv, hg.class_ hclass]
  | _ => simp only [textWithin]

theorem textWithin_of_grows (hs : h.Sound) (hg : h.Grows h') {fuel fuel' : Nat} (hv : h.Has v)
    (hfuel : ∀ r, v = .array r → r < fuel) (hfuel' : ∀ r, v = .array r → r < fuel') :
    h'.textWithin fuel' v = h.textWithin fuel v := by
  induction fuel generalizing fuel' v with
  | zero => exact textWithin_of_not_array hs hg hv fun r hr => Nat.not_lt_zero r (hfuel r hr)
  | succ fuel ih =>
    by_cases harray : ∃ r, v = .array r
    · obtain ⟨r, rfl⟩ := harray
      obtain ⟨fuel', rfl⟩ := Nat.exists_eq_succ_of_ne_zero (Nat.ne_zero_of_lt (hfuel' r rfl))
      have hr := hfuel r rfl
      have hr' := hfuel' r rfl
      rw [textWithin, textWithin, hg.array hv]
      -- the elements are earlier arrays, so less fuel is enough for them
      have hmap : (h.array r).map (fun w => h'.textWithin fuel' w) =
          (h.array r).map fun w => h.textWithin fuel w := by
        apply List.map_congr_left
        intro w hw
        obtain ⟨hhas, hearlier⟩ := hs.elements r w hw
        refine ih hhas (fun r' heq => ?_) (fun r' heq => ?_)
        · have hlt := hearlier r' heq
          omega
        · have hlt := hearlier r' heq
          omega
      rw [hmap]
    · exact textWithin_of_not_array hs hg hv fun r heq => harray ⟨r, heq⟩

/-- The text of a value that is there does not change. -/
theorem text_of_grows (hs : h.Sound) (hg : h.Grows h') (hv : h.Has v) : h'.text v = h.text v := by
  refine textWithin_of_grows hs hg hv ?_ ?_
  · rintro r rfl
    exact hv
  · rintro r rfl
    exact hv.mono hg

/-! ### What is made and changed -/

theorem sound_empty : empty.Sound := by
  refine ⟨?_, nofun, ?_, ?_⟩
  · intro e x v hv
    rcases e with _ | e <;> cases hv
  · intro r x v hv
    cases hv
  · intro r v hv
    cases hv

theorem here?_define {s : Scopes} {e e' : Nat} {x y : String}
    (h : (s.define e x v).here? e' y = some w) : w = v ∨ s.here? e' y = some w := by
  rw [Scopes.here?, Scopes.cell_define] at h
  split at h
  · next heq =>
    by_cases hx : x = y
    · subst hx
      rw [Table.get?_set_self] at h
      exact .inl (Option.some.inj h).symm
    · rw [Table.get?_set_ne hx, heq.1] at h
      exact .inr h
  · exact .inr h

theorem here?_child {s : Scopes} {outer e : Nat} {x : String}
    (h : (s.child outer).here? e x = some v) : s.here? e x = some v := by
  rw [Scopes.here?, Scopes.cell_child] at h
  split at h
  · cases h
  · exact h

theorem grows_define (h : Heap) (e : Nat) (x : String) (v : Value) : h.Grows (h.define e x v) :=
  ⟨List.prefix_rfl, List.prefix_rfl, List.prefix_rfl, List.prefix_rfl⟩

theorem Sound.define (hs : h.Sound) (hv : h.Has v) (e : Nat) (x : String) :
    (h.define e x v).Sound where
  scopes e' y w hw := by
    rcases here?_define hw with rfl | hw
    · exact hv.mono (h.grows_define e x w)
    · exact (hs.scopes e' y w hw).mono (h.grows_define e x v)
  instances := hs.instances
  fields r y w hw := (hs.fields r y w hw).mono (h.grows_define e x v)
  elements r w hw := ⟨(hs.elements r w hw).1.mono (h.grows_define e x v), (hs.elements r w hw).2⟩

theorem grows_newScope (h : Heap) (e : Nat) : h.Grows (h.newScope e).2 :=
  ⟨List.prefix_rfl, List.prefix_rfl, List.prefix_rfl, List.prefix_rfl⟩

theorem Sound.newScope (hs : h.Sound) (e : Nat) : (h.newScope e).2.Sound where
  scopes e' y w hw := (hs.scopes e' y w (here?_child hw)).mono (h.grows_newScope e)
  instances := hs.instances
  fields r y w hw := (hs.fields r y w hw).mono (h.grows_newScope e)
  elements r w hw := ⟨(hs.elements r w hw).1.mono (h.grows_newScope e), (hs.elements r w hw).2⟩

/-- Functions and classes hold no values. -/
theorem Sound.of_grows (hs : h.Sound) (hg : h.Grows h') (hscopes : h'.scopes = h.scopes)
    (hinstances : h'.instances = h.instances) (harrays : h'.arrays = h.arrays) : h'.Sound where
  scopes e x w hw := by
    rw [hscopes] at hw
    exact (hs.scopes e x w hw).mono hg
  instances r hr := by
    rw [hinstances] at hr
    rw [instance_, hinstances]
    exact Nat.lt_of_lt_of_le (hs.instances r hr) hg.classes.length_le
  fields r x w hw := by
    rw [instance_, hinstances] at hw
    exact (hs.fields r x w hw).mono hg
  elements r w hw := by
    rw [array, harrays] at hw
    exact ⟨(hs.elements r w hw).1.mono hg, (hs.elements r w hw).2⟩

theorem grows_newFunction (h : Heap) (f : Function) : h.Grows (h.newFunction f).2 where
  functions := by simp [newFunction]
  classes := List.prefix_rfl
  instances := List.prefix_rfl
  arrays := List.prefix_rfl

theorem Sound.newFunction (hs : h.Sound) (f : Function) :
    (h.newFunction f).2.Sound ∧ (h.newFunction f).2.Has (h.newFunction f).1 := by
  refine ⟨hs.of_grows (h.grows_newFunction f) rfl rfl rfl, ?_⟩
  simp [Heap.newFunction, Has]

theorem grows_newClass (h : Heap) (c : Class) : h.Grows (h.newClass c).2 where
  functions := List.prefix_rfl
  classes := by simp [newClass]
  instances := List.prefix_rfl
  arrays := List.prefix_rfl

theorem Sound.newClass (hs : h.Sound) (c : Class) :
    (h.newClass c).2.Sound ∧ (h.newClass c).2.Has (h.newClass c).1 := by
  refine ⟨hs.of_grows (h.grows_newClass c) rfl rfl rfl, ?_⟩
  simp [Heap.newClass, Has]

theorem grows_newInstance (h : Heap) (c : Nat) : h.Grows (h.newInstance c).2 where
  functions := List.prefix_rfl
  classes := List.prefix_rfl
  instances := by simp [newInstance]
  arrays := List.prefix_rfl

theorem instance_newInstance (h : Heap) (c r : Nat) : (h.newInstance c).2.instance_ r =
    if r = h.instances.size then ⟨c, []⟩ else h.instance_ r := by
  rw [instance_, instance_, newInstance, Array.getElem?_push]
  split <;> rfl

theorem Sound.newInstance (hs : h.Sound) {c : Nat} (hc : h.Has (.class_ c)) :
    (h.newInstance c).2.Sound ∧ (h.newInstance c).2.Has (.instance_ (h.newInstance c).1) := by
  have hg := h.grows_newInstance c
  refine ⟨⟨?_, ?_, ?_, ?_⟩, ?_⟩
  · intro e x w hw
    exact (hs.scopes e x w hw).mono hg
  · intro r hr
    rw [instance_newInstance]
    split
    · exact hc
    · next hne =>
      have hlt : r < h.instances.size + 1 := by simpa [Heap.newInstance] using hr
      exact hs.instances r (by omega)
  · intro r x w hw
    rw [instance_newInstance] at hw
    split at hw
    · cases hw
    · exact (hs.fields r x w hw).mono hg
  · intro r w hw
    exact ⟨(hs.elements r w hw).1.mono hg, (hs.elements r w hw).2⟩
  · simp [Heap.newInstance, Has]

theorem grows_newArray (h : Heap) (elements : List Value) : h.Grows (h.newArray elements).2 where
  functions := List.prefix_rfl
  classes := List.prefix_rfl
  instances := List.prefix_rfl
  arrays := by simp [newArray]

theorem array_newArray (h : Heap) (elements : List Value) (r : Nat) :
    (h.newArray elements).2.array r = if r = h.arrays.size then elements else h.array r := by
  rw [array, array, newArray, Array.getElem?_push]
  split <;> rfl

theorem Sound.newArray (hs : h.Sound) {elements : List Value} (hvs : ∀ v ∈ elements, h.Has v) :
    (h.newArray elements).2.Sound ∧ (h.newArray elements).2.Has (h.newArray elements).1 := by
  have hg := h.grows_newArray elements
  refine ⟨⟨?_, hs.instances, ?_, ?_⟩, ?_⟩
  · intro e x w hw
    exact (hs.scopes e x w hw).mono hg
  · intro r x w hw
    exact (hs.fields r x w hw).mono hg
  · intro r w hw
    rw [array_newArray] at hw
    split at hw
    · next heq =>
      refine ⟨(hvs w hw).mono hg, ?_⟩
      rintro r' rfl
      rw [heq]
      exact hvs _ hw
    · exact ⟨(hs.elements r w hw).1.mono hg, (hs.elements r w hw).2⟩
  · simp [Heap.newArray, Has]

theorem instance_setField (h : Heap) (r : Nat) (x : String) (r' : Nat) :
    ((h.setField r x v).instance_ r').class_ = (h.instance_ r').class_ ∧
      ∀ y w, ((h.setField r x v).instance_ r').fields.get? y = some w →
        w = v ∨ (h.instance_ r').fields.get? y = some w := by
  rw [instance_, instance_, setField, Array.getElem?_modify]
  split
  · cases h.instances[r']? with
    | none => exact ⟨rfl, fun y w hw => .inr hw⟩
    | some i =>
      refine ⟨rfl, fun y w hw => ?_⟩
      by_cases hx : x = y
      · subst hx
        have hset : (i.fields.set x v).get? x = some w := hw
        rw [Table.get?_set_self] at hset
        exact .inl (Option.some.inj hset).symm
      · have hset : (i.fields.set x v).get? y = some w := hw
        rw [Table.get?_set_ne hx] at hset
        exact .inr hset
  · exact ⟨rfl, fun y w hw => .inr hw⟩

theorem grows_setField (h : Heap) (r : Nat) (x : String) (v : Value) :
    h.Grows (h.setField r x v) where
  functions := List.prefix_rfl
  classes := List.prefix_rfl
  instances := by
    have hmap : (h.setField r x v).instances.toList.map Instance.class_ =
        h.instances.toList.map Instance.class_ := by
      apply List.ext_getElem?
      intro i
      simp only [setField, List.getElem?_map, Array.getElem?_toList, Array.getElem?_modify]
      split
      · cases h.instances[i]? <;> rfl
      · rfl
    exact ⟨[], by rw [List.append_nil, hmap]⟩
  arrays := List.prefix_rfl

theorem Sound.setField (hs : h.Sound) (hv : h.Has v) (r : Nat) (x : String) :
    (h.setField r x v).Sound := by
  have hg := h.grows_setField r x v
  refine ⟨?_, ?_, ?_, ?_⟩
  · intro e y w hw
    exact (hs.scopes e y w hw).mono hg
  · intro r' hr'
    rw [(h.instance_setField r x r').1]
    exact hs.instances r' (by simpa [Heap.setField] using hr')
  · intro r' y w hw
    rcases (h.instance_setField r x r').2 y w hw with rfl | hw
    · exact hv.mono hg
    · exact (hs.fields r' y w hw).mono hg
  · intro r' w hw
    exact ⟨(hs.elements r' w hw).1.mono hg, (hs.elements r' w hw).2⟩

theorem Sound.bindParameters (hs : h.Sound) (e : Nat) (parameters : List Token)
    {arguments : List Value} (hvs : ∀ v ∈ arguments, h.Has v) :
    (State.bindParameters h e parameters arguments).Sound ∧
      h.Grows (State.bindParameters h e parameters arguments) := by
  have hzip : ∀ p ∈ parameters.zip arguments, h.Has p.2 :=
    fun _ hp => hvs _ (List.of_mem_zip hp).2
  rw [State.bindParameters]
  generalize parameters.zip arguments = pairs at hzip
  clear hvs
  induction pairs generalizing h with
  | nil => exact ⟨hs, .refl h⟩
  | cons p pairs ih =>
    obtain ⟨hp, hpairs⟩ := List.forall_mem_cons.1 hzip
    have hg := h.grows_define e p.1.lexeme p.2
    obtain ⟨hsound, hgrows⟩ := ih (hs.define hp e p.1.lexeme) fun q hq => (hpairs q hq).mono hg
    exact ⟨hsound, hg.trans hgrows⟩

theorem Sound.bindMethod (hs : h.Sound) (f : Function) {r : Nat} (hr : h.Has (.instance_ r)) :
    (h.bindMethod f r).2.Sound ∧ h.Grows (h.bindMethod f r).2 := by
  have hg := h.grows_newScope f.scope
  have hthis : (h.newScope f.scope).2.Has (.instance_ r) := hr.mono hg
  exact ⟨(hs.newScope f.scope).define hthis _ _, hg.trans (grows_define _ _ _ _)⟩

end Heap

/-! ### What operators give -/

/-- If there is a value, it has been made. -/
def Heap.Gives (h : Heap) (outcome : Except Fault Value) : Prop :=
  ∀ v, outcome = .ok v → h.Has v

namespace Heap

variable (h : Heap)

theorem gives_error (f : Fault) : h.Gives (.error f) := nofun

variable {h}

theorem Has.gives {v : Value} (hv : h.Has v) : h.Gives (.ok v) := by
  intro w hw
  cases hw
  exact hv

theorem has_ofFloat (x : Float) : h.Has (.ofFloat x) := by
  unfold Value.ofFloat
  split <;> exact trivial

theorem gives_onNumbers (a b : Value) {f : Float → Float → Value} (hf : ∀ x y, h.Has (f x y)) :
    h.Gives (h.onNumbers a b f) := by
  unfold onNumbers
  split
  · exact h.gives_error _
  · exact (hf _ _).gives

theorem gives_unary (operator : Token) (fixity : Fixity) (v : Value) :
    h.Gives (h.unary operator fixity v) := by
  unfold unary
  split
  · exact Has.gives trivial
  · split
    · exact h.gives_error _
    · exact (has_ofFloat _).gives
  · split
    · split
      · exact h.gives_error _
      · split <;> exact (has_ofFloat _).gives
    · exact h.gives_error _

theorem gives_binary (a : Value) (operator : Token) (b : Value) :
    h.Gives (h.binary a operator b) := by
  have hplus : h.Gives (h.plus a b) := by
    unfold plus
    split
    · exact Has.gives trivial
    · exact h.gives_error _
    · exact gives_onNumbers _ _ fun _ _ => has_ofFloat _
  unfold binary
  split
  · exact Has.gives trivial
  · exact Has.gives trivial
  · exact hplus
  · exact gives_onNumbers _ _ fun _ _ => has_ofFloat _
  · exact gives_onNumbers _ _ fun _ _ => has_ofFloat _
  · exact gives_onNumbers _ _ fun _ _ => has_ofFloat _
  · exact gives_onNumbers _ _ fun _ _ => trivial
  · exact gives_onNumbers _ _ fun _ _ => trivial
  · exact gives_onNumbers _ _ fun _ _ => trivial
  · exact gives_onNumbers _ _ fun _ _ => trivial
  · exact h.gives_error _

theorem Sound.index (hs : h.Sound) (collection : Value) (bracket : Token) (position : Value) :
    h.Gives (h.index collection bracket position) := by
  unfold Heap.index
  split
  · next r =>
    split
    · exact h.gives_error _
    · split
      · next v hv =>
        have hmem : v ∈ h.array r := by
          unfold elementAt? at hv
          split at hv
          · exact List.mem_of_getElem? hv
          · cases hv
        exact (hs.elements r v hmem).1.gives
      · exact h.gives_error _
  · exact h.gives_error _

theorem Sound.get? (hs : h.Sound) {e : Nat} {x : String} {v : Value}
    (hv : h.scopes.get? e x = some v) : h.Has v := by
  unfold Scopes.get? at hv
  split at hv
  · exact hs.scopes _ x v hv
  · cases hv

theorem Sound.getAt? (hs : h.Sound) {e distance : Nat} {x : String} {v : Value}
    (hv : h.scopes.getAt? e distance x = some v) : h.Has v := by
  unfold Scopes.getAt? at hv
  split at hv
  · exact hs.scopes _ x v hv
  · cases hv

/-- A builtin function makes arrays at most. -/
theorem Sound.apply (hs : h.Sound) (b : Builtin) (time : Float) (line : Nat)
    {arguments : List Value} (hvs : ∀ v ∈ arguments, h.Has v) :
    (b.apply h time line arguments).2.Sound ∧ h.Grows (b.apply h time line arguments).2 ∧
      (b.apply h time line arguments).2.Gives (b.apply h time line arguments).1 := by
  cases b with
  | clock | type | bool | string => exact ⟨hs, .refl h, Has.gives trivial⟩
  | int | float | len =>
    simp only [Builtin.apply]
    split
    · exact ⟨hs, .refl h, Has.gives trivial⟩
    · exact ⟨hs, .refl h, h.gives_error _⟩
  | array =>
    obtain ⟨hsound, hhas⟩ := hs.newArray hvs
    exact ⟨hsound, h.grows_newArray arguments, hhas.gives⟩

end Heap

theorem Machine.gives_lookUp {m : Machine} (hs : m.heap.Sound) (reference : Nat) (name : Token) :
    m.heap.Gives (m.lookUp reference name) := by
  unfold lookUp
  dsimp only
  split
  · next v hv =>
    split at hv
    · exact (hs.getAt? hv).gives
    · exact (hs.get? hv).gives
  · exact m.heap.gives_error _

/-! ### The values at hand -/

def Focus.values : Focus → List Value
  | .invoke callee arguments _ => callee :: arguments
  | .value v => [v]
  | .signal (.returned v) => [v]
  | _ => []

def Frame.values : Frame → List Value
  | .binaryRight left _ => [left]
  | .arguments called _ done _ => called :: done
  | .elements done _ => done
  | .position indexed _ => [indexed]
  | .setValue target _ => [.instance_ target]
  | .construct target => [.instance_ target]
  | _ => []

namespace State

/-- The values at hand have been made. -/
structure Sound (st : State) : Prop where
  heap : st.machine.heap.Sound
  focus : ∀ v ∈ st.focus.values, st.machine.heap.Has v
  stack : ∀ v ∈ st.stack.flatMap Frame.values, st.machine.heap.Has v

/-- The heap of the state has grown from `h`, and the values at hand have been made. -/
structure Follows (h : Heap) (st : State) : Prop where
  grows : h.Grows st.machine.heap
  sound : st.Sound

/-- The machine may go on with the stack. -/
structure Ready (stack : List Frame) (m : Machine) : Prop where
  heap : m.heap.Sound
  stack : ∀ v ∈ stack.flatMap Frame.values, m.heap.Has v

variable {stack : List Frame} {m m' : Machine} {h : Heap} {st : State}

theorem Ready.grow (hr : Ready stack m) (hs : m'.heap.Sound) (hg : m.heap.Grows m'.heap) :
    Ready stack m' :=
  ⟨hs, fun v hv => (hr.stack v hv).mono hg⟩

theorem Ready.withHeap (hr : Ready stack m) (hs : h.Sound) (hg : m.heap.Grows h) :
    Ready stack { m with heap := h } :=
  hr.grow hs hg

theorem Ready.push (hr : Ready stack m) {frame : Frame}
    (hframe : ∀ v ∈ frame.values, m.heap.Has v) : Ready (frame :: stack) m where
  heap := hr.heap
  stack v hv := by
    rw [List.flatMap_cons] at hv
    rcases List.mem_append.1 hv with hv | hv
    · exact hframe v hv
    · exact hr.stack v hv

theorem Ready.follows (hr : Ready stack m) {focus : Focus}
    (hfocus : ∀ v ∈ focus.values, m.heap.Has v) : Follows m.heap ⟨focus, stack, m⟩ :=
  ⟨.refl _, hr.heap, hfocus, hr.stack⟩

theorem Follows.after (hst : Follows m.heap st) (hg : h.Grows m.heap) : Follows h st :=
  ⟨hg.trans hst.grows, hst.sound⟩

theorem Ready.value (hr : Ready stack m) {v : Value} (hv : m.heap.Has v) :
    Follows m.heap ⟨.value v, stack, m⟩ :=
  hr.follows fun _ hw => List.mem_singleton.1 hw ▸ hv

/-- The machine attends to something that is no value and holds none. -/
theorem Ready.attend (hr : Ready stack m) {focus : Focus} (hfocus : focus.values = []) :
    Follows m.heap ⟨focus, stack, m⟩ :=
  hr.follows (by rw [hfocus]; exact nofun)

/-- A frame that holds no value is put on the stack. -/
theorem Ready.wait (hr : Ready stack m) {frame : Frame} (hframe : frame.values = []) :
    Ready (frame :: stack) m :=
  hr.push (by rw [hframe]; exact nofun)

theorem Ready.settle (hr : Ready stack m) {outcome : Except Fault Value}
    (ho : m.heap.Gives outcome) : Follows m.heap (settle outcome stack m) := by
  cases outcome with
  | error f => exact hr.attend rfl
  | ok v => exact hr.value (ho v rfl)

theorem Ready.runStmts (hr : Ready stack m) (ss : List Stmt) :
    Follows m.heap (runStmts ss stack m) := by
  cases ss with
  | nil => exact hr.attend rfl
  | cons x rest => exact (hr.wait rfl).attend rfl

theorem Ready.define (hr : Ready stack m) {v : Value} (hv : m.heap.Has v) (x : String) :
    Ready stack (m.define x v) :=
  hr.grow (hr.heap.define hv m.scope x) (m.heap.grows_define _ _ _)

theorem Ready.enterScope (hr : Ready stack m) (e : Nat) : Ready stack (m.enterScope e) :=
  hr.grow (hr.heap.newScope e) (m.heap.grows_newScope e)

/-! ### Steps -/

theorem Ready.unary (hr : Ready stack m) (operator : Token) (operand : Expr) (fixity : Fixity) :
    Follows m.heap (unary operator operand fixity stack m) := by
  unfold State.unary
  split
  · next name size _ =>
    unfold stepVariable
    split
    · exact hr.attend rfl
    · next e _ =>
      split
      · exact hr.attend rfl
      · next v _ =>
        split
        · exact hr.attend rfl
        · next x _ =>
          have hg := m.heap.grows_define e name.lexeme (.ofFloat (x + size))
          have hr' : Ready stack (m.store e name (.ofFloat (x + size))) :=
            hr.grow (hr.heap.define (Heap.has_ofFloat _) e name.lexeme) hg
          refine (hr'.settle ?_).after hg
          intro w hw
          exact (Heap.gives_unary operator fixity v w hw).mono hg
  · exact (hr.wait rfl).attend rfl

theorem Ready.argumentsFrom (hr : Ready stack m) {callee : Value} {done : List Value}
    (hcallee : m.heap.Has callee) (hdone : ∀ v ∈ done, m.heap.Has v) (paren : Token)
    (todo : List Expr) : Follows m.heap (argumentsFrom callee paren done todo stack m) := by
  have hall : ∀ v ∈ callee :: done, m.heap.Has v := List.forall_mem_cons.2 ⟨hcallee, hdone⟩
  cases todo with
  | nil => exact hr.follows fun v hv => hall v (by simpa [Focus.values] using hv)
  | cons e todo =>
    have hr' : Ready (.arguments callee paren done todo :: stack) m := hr.push hall
    exact hr'.attend rfl

theorem Ready.elementsFrom (hr : Ready stack m) {done : List Value}
    (hdone : ∀ v ∈ done, m.heap.Has v) (todo : List Expr) :
    Follows m.heap (elementsFrom done todo stack m) := by
  cases todo with
  | nil =>
    have hg := m.heap.grows_newArray done.reverse
    obtain ⟨hsound, hhas⟩ := hr.heap.newArray fun v hv => hdone v (List.mem_reverse.1 hv)
    exact ((hr.withHeap hsound hg).value hhas).after hg
  | cons e todo =>
    have hr' : Ready (.elements done todo :: stack) m := hr.push hdone
    exact hr'.attend rfl

theorem Ready.variablesFrom (hr : Ready stack m) (bindings : List (Token × Option Expr)) :
    Follows m.heap (variablesFrom bindings stack m) := by
  induction bindings generalizing m with
  | nil => exact hr.attend rfl
  | cons b rest ih =>
    obtain ⟨name, _ | value⟩ := b
    · have hr' := hr.define (v := .nil) trivial name.lexeme
      exact (ih hr').after (m.heap.grows_define _ _ _)
    · exact (hr.wait rfl).attend rfl

theorem Ready.makeFunction (hr : Ready stack m) (decl : FunctionDecl) :
    Ready stack (makeFunction decl m).2 ∧ m.heap.Grows (makeFunction decl m).2.heap ∧
      (makeFunction decl m).2.heap.Has (makeFunction decl m).1 := by
  have hg := m.heap.grows_newFunction ⟨decl, m.scope, false⟩
  obtain ⟨hsound, hhas⟩ := hr.heap.newFunction ⟨decl, m.scope, false⟩
  exact ⟨hr.grow hsound hg, hg, hhas⟩

theorem Ready.evaluate (hr : Ready stack m) (e : Expr) : Follows m.heap (evaluate e stack m) := by
  cases e with
  | literal value => exact hr.value (by cases value <;> trivial)
  | group inner => exact hr.attend rfl
  | unary operator operand fixity => exact hr.unary operator operand fixity
  | «variable» reference name => exact hr.settle (Machine.gives_lookUp hr.heap reference name)
  | this reference keyword => exact hr.settle (Machine.gives_lookUp hr.heap reference keyword)
  | array bracket elements =>
    have hnone : ∀ v ∈ ([] : List Value), m.heap.Has v := nofun
    exact hr.elementsFrom hnone elements
  | lambda decl =>
    obtain ⟨hr', hg, hhas⟩ := hr.makeFunction decl
    exact (hr'.value hhas).after hg
  | _ => exact (hr.wait rfl).attend rfl

theorem Ready.execute (hr : Ready stack m) (x : Stmt) : Follows m.heap (execute x stack m) := by
  cases x with
  | var bindings => exact hr.variablesFrom bindings
  | function decl =>
    obtain ⟨hr', hg, hhas⟩ := hr.makeFunction decl
    exact ((hr'.define hhas decl.label).attend rfl).after (hg.trans (Heap.grows_define _ _ _ _))
  | classDecl name methods =>
    have hg := m.heap.grows_newClass ⟨name.lexeme, methodTable m.scope methods⟩
    obtain ⟨hsound, hhas⟩ := hr.heap.newClass ⟨name.lexeme, methodTable m.scope methods⟩
    have hr' := hr.withHeap hsound hg
    exact ((hr'.define hhas name.lexeme).attend rfl).after (hg.trans (Heap.grows_define _ _ _ _))
  | block body =>
    have hwait : Ready (.restore m.scope :: stack) m := hr.wait rfl
    exact ((hwait.enterScope m.scope).runStmts body).after (m.heap.grows_newScope m.scope)
  | returning keyword value =>
    cases value with
    | none => exact hr.follows fun _ hv => List.mem_singleton.1 hv ▸ trivial
    | some value => exact (hr.wait rfl).attend rfl
  | breaking keyword | continuing keyword => exact hr.attend rfl
  | _ => exact (hr.wait rfl).attend rfl

theorem Ready.enterBody (hr : Ready stack m) (f : Function) {arguments : List Value}
    (hvs : ∀ v ∈ arguments, m.heap.Has v) : Follows m.heap (enterBody f arguments stack m) := by
  have hg := m.heap.grows_newScope f.scope
  obtain ⟨hsound, hgrows⟩ := (hr.heap.newScope f.scope).bindParameters (m.heap.newScope f.scope).1
    f.decl.parameters fun v hv => (hvs v hv).mono hg
  have hwait : Ready (.restore m.scope :: .body f :: stack) m := (hr.wait rfl).wait rfl
  have hr' := (hwait.withHeap hsound (hg.trans hgrows)).enterScope (m.heap.newScope f.scope).1
  exact (hr'.runStmts f.decl.body).after ((hg.trans hgrows).trans (Heap.grows_newScope _ _))

theorem Ready.instantiate (hr : Ready stack m) {r : Nat} (hclass : m.heap.Has (.class_ r))
    {arguments : List Value} (hvs : ∀ v ∈ arguments, m.heap.Has v) :
    Follows m.heap (instantiate r arguments stack m) := by
  have hg := m.heap.grows_newInstance r
  obtain ⟨hsound, hhas⟩ := hr.heap.newInstance hclass
  have hr' := hr.withHeap hsound hg
  unfold State.instantiate
  dsimp only
  split
  · exact (hr'.value hhas).after hg
  · next f _ =>
    obtain ⟨hsound', hg'⟩ := hsound.bindMethod f hhas
    have hwait : Ready (.construct (m.heap.newInstance r).1 :: stack)
        { m with heap := (m.heap.newInstance r).2 } :=
      hr'.push fun _ hv => List.mem_singleton.1 hv ▸ hhas
    have hr'' := hwait.withHeap hsound' hg'
    exact (hr''.enterBody _ fun v hv => (hvs v hv).mono (hg.trans hg')).after (hg.trans hg')

theorem Ready.enterCallee (hr : Ready stack m) {callee : Value} (hcallee : m.heap.Has callee)
    {arguments : List Value} (hvs : ∀ v ∈ arguments, m.heap.Has v) (line : Nat) :
    Follows m.heap (enterCallee callee arguments line stack m) := by
  cases callee with
  | builtin b =>
    obtain ⟨hsound, hg, hgives⟩ := hr.heap.apply b m.time line hvs
    exact ((hr.withHeap hsound hg).settle hgives).after hg
  | function r => exact hr.enterBody _ hvs
  | class_ r => exact hr.instantiate hcallee hvs
  | _ => exact hr.attend rfl

theorem Ready.invoke (hr : Ready stack m) {callee : Value} (hcallee : m.heap.Has callee)
    {arguments : List Value} (hvs : ∀ v ∈ arguments, m.heap.Has v) (line : Nat) :
    Follows m.heap (invoke callee arguments line stack m) := by
  unfold State.invoke
  split
  · exact hr.attend rfl
  · split
    · exact hr.attend rfl
    · split
      · exact hr.attend rfl
      · have hr' : Ready (.leave :: stack) (m.enterCall (calleeName m.heap callee)) :=
          (hr.wait rfl).grow hr.heap (.refl _)
        exact hr'.enterCallee hcallee hvs line

theorem Ready.property (hr : Ready stack m) {r : Nat} (htarget : m.heap.Has (.instance_ r))
    (name : Token) : Follows m.heap (property r name stack m) := by
  unfold State.property
  split
  · next v hv => exact hr.value (hr.heap.fields r name.lexeme v hv)
  · split
    · next f _ =>
      obtain ⟨hsound, hg⟩ := hr.heap.bindMethod f htarget
      have hg' := (m.heap.bindMethod f r).2.grows_newFunction (m.heap.bindMethod f r).1
      obtain ⟨hsound', hhas⟩ := hsound.newFunction (m.heap.bindMethod f r).1
      exact ((hr.withHeap hsound' (hg.trans hg')).value hhas).after (hg.trans hg')
    · exact hr.attend rfl

theorem Ready.nextRound (hr : Ready stack m) (loop : Loop) :
    Follows m.heap (nextRound loop stack m) := by
  unfold State.nextRound
  split <;> exact (hr.wait rfl).attend rfl

/-- A frame is taken off the stack. -/
theorem Ready.pop {frame : Frame} (hr : Ready (frame :: stack) m) :
    Ready stack m ∧ ∀ v ∈ frame.values, m.heap.Has v := by
  have hall := hr.stack
  rw [List.flatMap_cons] at hall
  obtain ⟨hframe, hstack⟩ := List.forall_mem_append.1 hall
  exact ⟨⟨hr.heap, hstack⟩, hframe⟩

theorem Ready.giveValue {frame : Frame} (hrf : Ready (frame :: stack) m) {v : Value}
    (hv : m.heap.Has v) : Follows m.heap (giveValue v frame stack m) := by
  obtain ⟨hr, hframe⟩ := hrf.pop
  cases frame with
  | unary operator fixity => exact hr.settle (Heap.gives_unary operator fixity v)
  | binaryLeft operator right =>
    have hr' : Ready (.binaryRight v operator :: stack) m :=
      hr.push fun _ hw => List.mem_singleton.1 hw ▸ hv
    exact hr'.attend rfl
  | binaryRight left operator => exact hr.settle (Heap.gives_binary left operator v)
  | logical operator right =>
    unfold State.giveValue
    dsimp only
    split
    · exact hr.value hv
    · exact hr.attend rfl
  | assign reference name =>
    unfold State.giveValue
    dsimp only
    split
    · next e _ =>
      have hg := m.heap.grows_define e name.lexeme v
      have hr' : Ready stack (m.store e name v) := hr.grow (hr.heap.define hv e name.lexeme) hg
      exact (hr'.value (hv.mono hg)).after hg
    · exact hr.attend rfl
  | callee paren arguments =>
    unfold State.giveValue
    dsimp only
    split
    · have hnone : ∀ w ∈ ([] : List Value), m.heap.Has w := nofun
      exact hr.argumentsFrom hv hnone paren arguments
    · exact hr.attend rfl
  | arguments called paren done todo =>
    obtain ⟨hcalled, hdone⟩ := List.forall_mem_cons.1 hframe
    exact hr.argumentsFrom hcalled (List.forall_mem_cons.2 ⟨hv, hdone⟩) paren todo
  | elements done todo => exact hr.elementsFrom (List.forall_mem_cons.2 ⟨hv, hframe⟩) todo
  | collection bracket position =>
    have hr' : Ready (.position v bracket :: stack) m :=
      hr.push fun _ hw => List.mem_singleton.1 hw ▸ hv
    exact hr'.attend rfl
  | position indexed bracket => exact hr.settle (hr.heap.index indexed bracket v)
  | get name =>
    unfold State.giveValue
    dsimp only
    split
    · exact hr.property hv name
    · exact hr.attend rfl
  | setObject name value =>
    unfold State.giveValue
    dsimp only
    split
    · next r =>
      have hr' : Ready (.setValue r name :: stack) m :=
        hr.push fun _ hw => List.mem_singleton.1 hw ▸ hv
      exact hr'.attend rfl
    · exact hr.attend rfl
  | setValue target name =>
    have hg := m.heap.grows_setField target name.lexeme v
    have hr' := hr.withHeap (hr.heap.setField hv target name.lexeme) hg
    exact (hr'.value (hv.mono hg)).after hg
  | print => exact (hr.grow hr.heap (.refl _) : Ready stack (m.printLine _)).attend rfl
  | var name rest =>
    exact ((hr.define hv name.lexeme).variablesFrom rest).after (m.heap.grows_define _ _ _)
  | conditional whenTrue whenFalse =>
    unfold State.giveValue
    dsimp only
    split
    · exact hr.attend rfl
    · split <;> exact hr.attend rfl
  | condition loop =>
    unfold State.giveValue
    dsimp only
    split
    · exact (hr.wait rfl).attend rfl
    · exact hr.attend rfl
  | increment loop => exact (hr.wait rfl).attend rfl
  | returning => exact hr.follows fun _ hw => List.mem_singleton.1 hw ▸ hv
  | restore scope => exact (hr.grow hr.heap (.refl _) : Ready stack { m with scope }).value hv
  | construct target => exact hr.value (hframe _ (List.mem_singleton_self _))
  | leave => exact (hr.grow hr.heap (.refl _) : Ready stack m.leaveCall).value hv
  | sequence rest | round loop | body f => exact hr.value hv
  | ternary whenTrue whenFalse | expression => exact hr.attend rfl

theorem gives_bodyValue (hs : m.heap.Sound) (f : Function) {x : Signal}
    (hx : ∀ v ∈ (Focus.signal x).values, m.heap.Has v) : m.heap.Gives (bodyValue f x m) := by
  unfold bodyValue
  split
  · split
    · next v hv => exact (hs.getAt? hv).gives
    · exact m.heap.gives_error _
  · split
    · next v => exact (hx v (List.mem_singleton_self _)).gives
    · exact Heap.Has.gives trivial

theorem Ready.giveSignal {frame : Frame} (hrf : Ready (frame :: stack) m) {x : Signal}
    (hx : ∀ v ∈ (Focus.signal x).values, m.heap.Has v) :
    Follows m.heap (giveSignal x frame stack m) := by
  obtain ⟨hr, -⟩ := hrf.pop
  cases frame with
  | sequence rest =>
    unfold State.giveSignal
    dsimp only
    split
    · exact hr.runStmts rest
    · exact hr.follows hx
  | round loop =>
    unfold State.giveSignal
    dsimp only
    split
    · exact hr.attend rfl
    · exact hr.follows hx
    · exact hr.nextRound loop
    · exact hr.nextRound loop
  | restore scope => exact (hr.grow hr.heap (.refl _) : Ready stack { m with scope }).follows hx
  | body f => exact hr.settle (gives_bodyValue hr.heap f hx)
  | leave => exact (hr.grow hr.heap (.refl _) : Ready stack m.leaveCall).follows hx
  | _ => exact hr.follows hx

theorem Ready.giveFault {frame : Frame} (hrf : Ready (frame :: stack) m) (f : Fault) :
    Follows m.heap (giveFault f frame stack m) := by
  obtain ⟨hr, -⟩ := hrf.pop
  cases frame with
  | restore scope => exact (hr.grow hr.heap (.refl _) : Ready stack { m with scope }).attend rfl
  | leave => exact (hr.grow hr.heap (.refl _) : Ready stack m.leaveCall).attend rfl
  | _ => exact hr.attend rfl

/-- A step only adds to the heap, and makes what it refers to. -/
theorem Sound.step (hst : st.Sound) : Follows st.machine.heap st.step := by
  obtain ⟨focus, stack, m⟩ := st
  have hr : Ready stack m := ⟨hst.heap, hst.stack⟩
  have hfocus : ∀ v ∈ focus.values, m.heap.Has v := hst.focus
  cases focus with
  | evaluate e => exact hr.evaluate e
  | execute x => exact hr.execute x
  | invoke callee arguments line =>
    obtain ⟨hcallee, hvs⟩ := List.forall_mem_cons.1 hfocus
    exact hr.invoke hcallee hvs line
  | value v =>
    rcases stack with _ | ⟨frame, stack⟩
    · exact hr.follows hfocus
    · exact hr.giveValue (hfocus v (List.mem_singleton_self v))
  | signal x =>
    rcases stack with _ | ⟨frame, stack⟩
    · exact hr.follows hfocus
    · exact hr.giveSignal hfocus
  | fault f =>
    rcases stack with _ | ⟨frame, stack⟩
    · exact hr.follows hfocus
    · exact hr.giveFault f

theorem Sound.steps (hst : st.Sound) (count : Nat) :
    Follows st.machine.heap (st.steps count) := by
  induction count generalizing st with
  | zero => exact ⟨.refl _, hst⟩
  | succ count ih =>
    have hstep := hst.step
    exact ⟨hstep.grows.trans (ih hstep.sound).grows, (ih hstep.sound).sound⟩

/-- A run only adds to the heap, and its value has been made. -/
theorem Sound.run (hst : st.Sound) {limit : Nat} {ending : Ending}
    (hrun : st.run limit = some (ending, m)) :
    m.heap.Sound ∧ st.machine.heap.Grows m.heap ∧ ∀ v, ending = .value v → m.heap.Has v := by
  obtain ⟨hending, rfl⟩ := steps_of_run hrun
  have hsteps := hst.steps limit
  refine ⟨hsteps.sound.heap, hsteps.grows, ?_⟩
  rintro v rfl
  have hfocus := hsteps.sound.focus
  generalize st.steps limit = last at hending hfocus
  unfold ending? at hending
  split at hending <;> cases hending
  exact hfocus v (List.mem_singleton_self v)

end State

/-! ### Programs and sessions -/

namespace Machine

variable {m m' : Machine} {limit : Nat}

theorem begins_sound (hs : m.heap.Sound) (x : Stmt) : (x.begins m).Sound := by
  cases x <;> exact ⟨hs, nofun, nofun⟩

theorem sound_interpretOne (hs : m.heap.Sound) {x : Stmt} {outcome : Except Fault (Option Value)}
    (h : m.interpretOne limit x = some (outcome, m')) :
    m'.heap.Sound ∧ m.heap.Grows m'.heap ∧ ∀ v, outcome = .ok (some v) → m'.heap.Has v := by
  have hmachine := x.machine_begins m
  obtain ⟨ending, hrun, -⟩ := run_of_interpretOne h
  obtain ⟨hsound, hg, -⟩ := (begins_sound hs x).run hrun
  rw [hmachine] at hg
  refine ⟨hsound, hg, ?_⟩
  rintro v rfl
  -- only an expression has a value, and it is the one that the run ended with
  unfold interpretOne at h
  split at h
  · next e =>
    obtain ⟨⟨outcome, m₁⟩, he, heq⟩ := Option.map_eq_some_iff.1 h
    rcases outcome with f | w
    · cases heq
    · cases heq
      exact ((begins_sound hs (.expression e)).run (run_of_evaluate he)).2.2 v rfl
  · split at h
    · cases h
    · cases h
    · split at h <;> cases h

/-- A program only adds to the heap, and its values have been made. -/
theorem sound_interpret (hs : m.heap.Sound) {program : List Stmt}
    {outcome : Except Fault (List (Option Value))}
    (h : m.interpret limit program = some (outcome, m')) :
    m'.heap.Sound ∧ m.heap.Grows m'.heap ∧
      ∀ values, outcome = .ok values → ∀ v, some v ∈ values → m'.heap.Has v := by
  induction program generalizing m outcome with
  | nil =>
    cases h
    refine ⟨hs, .refl _, ?_⟩
    intro values hvalues v hv
    cases hvalues
    cases hv
  | cons x rest ih =>
    rw [interpret] at h
    cases hone : m.interpretOne limit x with
    | none =>
      rw [hone] at h
      cases h
    | some r =>
      obtain ⟨outcome₁, m₁⟩ := r
      obtain ⟨hsound, hg, hvalue⟩ := sound_interpretOne hs hone
      rw [hone] at h
      rcases outcome₁ with f | v
      · cases h
        refine ⟨hsound, hg, ?_⟩
        intro values hvalues
        cases hvalues
      · dsimp only at h
        split at h
        · cases h
        · next outcome₂ m₂ hrest =>
          cases h
          obtain ⟨hsound', hg', hvalues⟩ := ih hsound hrest
          refine ⟨hsound', hg.trans hg', ?_⟩
          intro values hmap w hw
          rcases outcome₂ with f | values'
          · cases hmap
          · cases hmap
            rcases List.mem_cons.1 hw with hw | hw
            · exact (hvalue w (by rw [← hw])).mono hg'
            · exact hvalues values' rfl w hw

end Machine

namespace Session

variable {s s' : Session}

theorem sound_run {limit : Nat} {source : List UInt8}
    {result : Except Diagnostic (List (Option Value))} (hs : s.machine.heap.Sound)
    (hr : s.run limit source = some (result, s')) : s'.machine.heap.Sound := by
  have hmachine := machine_parse source s
  unfold Session.run at hr
  split at hr
  · next heq =>
    cases hr
    rw [heq] at hmachine
    rw [hmachine]
    exact hs
  · next program s₁ heq =>
    rw [heq] at hmachine
    have hresolve : (s₁.resolve program).2.machine.heap = s.machine.heap := by
      rw [resolve_eq, ← hmachine]
    split at hr
    · next heq' =>
      cases hr
      rw [heq'] at hresolve
      rw [hresolve]
      exact hs
    · next s₂ heq' =>
      rw [heq'] at hresolve
      unfold Session.interpret at hr
      split at hr
      · cases hr
      · next hi =>
        cases hr
        have hs₂ : s₂.machine.heap.Sound := by
          rw [hresolve]
          exact hs
        exact (Machine.sound_interpret hs₂ hi).1

theorem sound_start (time : Float) : (start time).machine.heap.Sound :=
  Machine.initial_heap time Heap.sound_empty fun _ b hh =>
    hh.define (v := .builtin b) trivial 0 b.name

theorem Reachable.sound {time : Float} (h : Reachable time s) : s.machine.heap.Sound := by
  induction h with
  | start => exact sound_start time
  | run _ hr ih => exact sound_run ih hr

end Session

end TreeWalk
