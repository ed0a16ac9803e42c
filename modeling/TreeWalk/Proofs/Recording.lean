import TreeWalk.Proofs.Visits

/-!
# What the walk records

The walk over a part changes distances under the references of the part only, whether it passes or
not (`Walk.Touches`). References occur once, so a node with a reference is visited in one setting
only, and after a walk that passes the distance under its reference is the one its name has in that
setting (`Visits.recorded`).
-/

namespace TreeWalk

/-- The distances that a walk leaves behind. -/
def Verdict.distances {α : Type} : Verdict α → Distances
  | .passed _ d => d
  | .rejected _ d => d

namespace Walk

variable {α β : Type} {refs refs' : List Nat}

/-- The walk changes distances under these references only. -/
def Touches (refs : List Nat) (w : Walk α) : Prop :=
  ∀ d r, r ∉ refs → (w d).distances.get? r = d.get? r

theorem Touches.mono {w : Walk α} (h : w.Touches refs) (hs : refs ⊆ refs') : w.Touches refs' :=
  fun d r hr => h d r fun hm => hr (hs hm)

theorem touches_pure (a : α) : Touches refs (pure a) := fun _ _ _ => rfl

theorem touches_reject (cause : ScopeCause) (t : Token) : Touches (α := α) refs (reject cause t) :=
  fun _ _ _ => rfl

theorem Touches.bind {w : Walk α} {f : α → Walk β} (hw : w.Touches refs)
    (hf : ∀ a, (f a).Touches refs) : Touches refs (w >>= f) := by
  intro d r hr
  have h := hw d r hr
  show (Walk.bind w f d).distances.get? r = d.get? r
  unfold Walk.bind
  split
  · next a d₁ hd =>
    rw [hd] at h
    rw [hf a d₁ r hr]
    exact h
  · next hd =>
    rw [hd] at h
    exact h

theorem Touches.append {w : Walk α} {f : α → Walk β} (hw : w.Touches refs)
    (hf : ∀ a, (f a).Touches refs') : Touches (refs ++ refs') (w >>= f) :=
  (hw.mono (List.subset_append_left _ _)).bind fun a =>
    (hf a).mono (List.subset_append_right _ _)

end Walk

namespace Context

variable {refs : List Nat}

theorem touches_declare (c : Context) (name : Token) : (c.declare name).Touches refs := by
  unfold declare
  split
  · exact Walk.touches_pure _
  · split
    · exact Walk.touches_reject _ _
    · exact Walk.touches_pure _

theorem touches_addAll (behind : Context → Token → Context) (c : Context) (names : List Token) :
    (c.addAll behind names).Touches refs := by
  induction names generalizing c with
  | nil => exact Walk.touches_pure _
  | cons name names ih => exact (touches_declare c name).bind fun c => ih (behind c name)

theorem touches_locate (c : Context) (reference : Nat) (name : Token) :
    (c.locate reference name).Touches [reference] := by
  unfold locate
  split
  · intro d r hr
    have hne : reference ≠ r := fun h => hr (List.mem_singleton.2 h.symm)
    exact Distances.get?_record_ne hne _ _
  · exact Walk.touches_pure _

end Context

mutual

theorem Expr.touches (e : Expr) (c : Context) : (e.resolve c).Touches e.references := by
  cases e with
  | literal value =>
    rw [Expr.resolve]
    exact Walk.touches_pure _
  | group e | unary _ e _ | get e _ =>
    rw [Expr.resolve, Expr.references]
    exact e.touches c
  | binary left _ right | logical left _ right | index left _ right | set left _ right =>
    rw [Expr.resolve, Expr.references]
    exact (left.touches c).append fun _ => right.touches c
  | ternary condition whenTrue whenFalse =>
    rw [Expr.resolve, Expr.references]
    exact (condition.touches c).append fun _ =>
      (whenTrue.touches c).append fun _ => whenFalse.touches c
  | «variable» reference name =>
    rw [Expr.resolve, Expr.references]
    split
    · exact Walk.touches_reject _ _
    · exact c.touches_locate reference name
  | assign reference name value =>
    rw [Expr.resolve, Expr.references]
    exact (value.touches c).append fun _ => c.touches_locate reference name
  | call callee paren arguments =>
    rw [Expr.resolve, Expr.references]
    exact (callee.touches c).append fun _ => touches_exprs arguments c
  | array bracket elements =>
    rw [Expr.resolve, Expr.references]
    exact touches_exprs elements c
  | this reference keyword =>
    rw [Expr.resolve, Expr.references]
    split
    · exact c.touches_locate reference keyword
    · exact Walk.touches_reject _ _
  | lambda decl =>
    rw [Expr.resolve, Expr.references]
    exact decl.touches .function c

theorem touches_exprs (es : List Expr) (c : Context) :
    (resolveExprs es c).Touches (referencesExprs es) := by
  cases es with
  | nil =>
    rw [resolveExprs]
    exact Walk.touches_pure _
  | cons e es =>
    rw [resolveExprs, referencesExprs]
    exact (e.touches c).append fun _ => touches_exprs es c

theorem FunctionDecl.touches (decl : FunctionDecl) (kind : Body) (c : Context) :
    (decl.resolve kind c).Touches decl.references := by
  obtain ⟨name, parameters, body, keyword⟩ := decl
  rw [FunctionDecl.resolve, FunctionDecl.references]
  exact (Context.touches_addAll _ _ _).bind fun c =>
    (touches_stmts body _).bind fun _ => Walk.touches_pure _

theorem Stmt.touches (s : Stmt) (c : Context) : (s.resolve c).Touches s.references := by
  cases s with
  | block body =>
    rw [Stmt.resolve, Stmt.references]
    exact (touches_stmts body _).bind fun _ => Walk.touches_pure _
  | expression value | print value =>
    rw [Stmt.resolve, Stmt.references]
    exact (value.touches c).bind fun _ => Walk.touches_pure _
  | var bindings =>
    rw [Stmt.resolve, Stmt.references]
    exact (Context.touches_addAll _ _ _).bind fun c =>
      (touches_bindings bindings c).bind fun _ => Walk.touches_pure _
  | function decl =>
    rw [Stmt.resolve, Stmt.references]
    exact (Context.touches_addAll _ _ _).bind fun c =>
      (decl.touches .function c).bind fun _ => Walk.touches_pure _
  | classDecl name methods =>
    rw [Stmt.resolve, Stmt.references]
    exact (Context.touches_addAll _ _ _).bind fun c =>
      (touches_methods methods _).bind fun _ => Walk.touches_pure _
  | conditional condition whenTrue whenFalse =>
    cases whenFalse with
    | none =>
      rw [Stmt.resolve, Stmt.references]
      exact (condition.touches c).append fun _ => whenTrue.touches c
    | some whenFalse =>
      rw [Stmt.resolve, Stmt.references]
      exact (condition.touches c).append fun _ =>
        (whenTrue.touches c).append fun c => whenFalse.touches c
  | loop condition body increment =>
    cases increment with
    | none =>
      rw [Stmt.resolve, Stmt.references]
      exact (condition.touches c).append fun _ => body.touches c
    | some increment =>
      rw [Stmt.resolve, Stmt.references]
      refine (condition.touches c).append fun _ => ?_
      exact ((body.touches c).mono (List.subset_append_right _ _)).bind fun c =>
        ((increment.touches c).mono (List.subset_append_left _ _)).bind fun _ => Walk.touches_pure _
  | returning keyword value =>
    cases value with
    | none =>
      rw [Stmt.resolve]
      split
      · exact Walk.touches_reject _ _
      · exact Walk.touches_pure _
    | some value =>
      rw [Stmt.resolve, Stmt.references]
      split
      · exact Walk.touches_reject _ _
      · split
        · exact Walk.touches_reject _ _
        · exact (value.touches c).bind fun _ => Walk.touches_pure _
  | breaking | continuing =>
    rw [Stmt.resolve]
    exact Walk.touches_pure _

theorem touches_stmts (ss : List Stmt) (c : Context) :
    (resolveStmts ss c).Touches (referencesStmts ss) := by
  cases ss with
  | nil =>
    rw [resolveStmts]
    exact Walk.touches_pure _
  | cons s rest =>
    rw [resolveStmts, referencesStmts]
    exact (s.touches c).append fun c => touches_stmts rest c

theorem touches_bindings (bs : List (Token × Option Expr)) (c : Context) :
    (resolveBindings bs c).Touches (referencesBindings bs) := by
  cases bs with
  | nil =>
    rw [resolveBindings]
    exact Walk.touches_pure _
  | cons b bs =>
    obtain ⟨name, _ | value⟩ := b
    · rw [resolveBindings, referencesBindings]
      exact touches_bindings bs c
    · rw [resolveBindings, referencesBindings]
      exact (value.touches c).append fun _ => touches_bindings bs c

theorem touches_methods (decls : List FunctionDecl) (c : Context) :
    (resolveMethods decls c).Touches (referencesMethods decls) := by
  cases decls with
  | nil =>
    rw [resolveMethods]
    exact Walk.touches_pure _
  | cons decl decls =>
    rw [resolveMethods, referencesMethods]
    exact (decl.touches _ c).append fun _ => touches_methods decls c

end

theorem Part.touches (part : Part) (c : Context) : (part.resolve c).Touches part.references := by
  cases part with
  | expr e => exact e.touches c
  | stmt s => exact (s.touches c).bind fun _ => Walk.touches_pure _
  | stmts ss => exact (touches_stmts ss c).bind fun _ => Walk.touches_pure _

/-! ### References of parts and of their children -/

/-- The references of parts, one part after the other. -/
def referencesParts (parts : List (Part × Setting)) : List Nat :=
  parts.flatMap fun q => q.1.references

theorem referencesParts_exprs (es : List Expr) (p : Setting) :
    referencesParts (Part.exprs es p) = referencesExprs es := by
  induction es with
  | nil => simp [referencesParts, Part.exprs, referencesExprs]
  | cons e es ih =>
    rw [referencesExprs, ← ih]
    rfl

theorem referencesExprs_bindings (bs : List (Token × Option Expr)) :
    referencesExprs (bs.filterMap Prod.snd) = referencesBindings bs := by
  induction bs with
  | nil => simp [referencesExprs, referencesBindings]
  | cons b bs ih =>
    obtain ⟨name, _ | value⟩ := b
    · simpa [referencesBindings] using ih
    · simp [referencesExprs, referencesBindings, ih]

theorem referencesParts_methods (decls : List FunctionDecl) (p : FunctionDecl → Setting) :
    referencesParts (decls.map fun decl => (.stmts decl.body, p decl)) = referencesMethods decls := by
  induction decls with
  | nil => simp [referencesParts, referencesMethods]
  | cons decl decls ih =>
    rw [referencesMethods, ← ih]
    obtain ⟨name, parameters, body, keyword⟩ := decl
    rw [FunctionDecl.references]
    rfl

theorem FunctionDecl.references_eq (decl : FunctionDecl) :
    decl.references = referencesStmts decl.body := by
  obtain ⟨name, parameters, body, keyword⟩ := decl
  rw [FunctionDecl.references]

/-- The references of a part are those of its children and its own. -/
theorem Part.references_perm (part : Part) (p : Setting) :
    part.references.Perm
      (referencesParts (part.children p) ++ (part.own?.map Prod.fst).toList) := by
  cases part with
  | expr e =>
    cases e with
    | lambda decl =>
      simp [Part.references, Expr.references, Part.children, referencesParts, Part.own?,
        FunctionDecl.references_eq]
    | _ =>
      simp [Part.references, Expr.references, Part.children, referencesParts_exprs, Part.own?,
        Expr.operands, referencesExprs]
  | stmt s =>
    cases s with
    | block body => simp [Part.references, Stmt.references, Part.children, referencesParts, Part.own?]
    | expression value | print value =>
      simp [Part.references, Stmt.references, Part.children, referencesParts_exprs, Part.own?,
        referencesExprs]
    | var bindings =>
      simp [Part.references, Stmt.references, Part.children, referencesParts_exprs, Part.own?,
        referencesExprs_bindings]
    | function decl =>
      simp [Part.references, Stmt.references, Part.children, referencesParts, Part.own?,
        FunctionDecl.references_eq]
    | classDecl name methods =>
      simp [Part.references, Stmt.references, Part.children, referencesParts_methods, Part.own?]
    | conditional condition whenTrue whenFalse =>
      cases whenFalse <;>
        simp [Part.references, Stmt.references, Part.children, referencesParts, Part.own?]
    | loop condition body increment =>
      -- what runs between rounds is read before the body and walked after it
      cases increment with
      | none => simp [Part.references, Stmt.references, Part.children, Part.exprs, referencesParts, Part.own?]
      | some increment =>
        simp only [Part.references, Stmt.references, Part.children, Part.exprs, Part.own?,
          referencesParts, Option.toList_some, List.map_cons, List.map_nil, List.flatMap_cons,
          List.flatMap_nil, Option.map_none, Option.toList_none, List.append_nil]
        exact List.perm_append_comm.append_left _
    | returning keyword value =>
      cases value <;>
        simp [Part.references, Stmt.references, Part.children, Part.exprs, referencesParts,
          Part.own?]
    | breaking | continuing =>
      simp [Part.references, Stmt.references, Part.children, referencesParts, Part.own?]
  | stmts ss =>
    cases ss <;> simp [Part.references, referencesStmts, Part.children, referencesParts, Part.own?]

/-- If no reference occurs twice, none occurs twice among the children. -/
theorem Part.nodup_children {part : Part} (hn : part.references.Nodup) (p : Setting) :
    (referencesParts (part.children p) ++ (part.own?.map Prod.fst).toList).Nodup :=
  (part.references_perm p).nodup_iff.1 hn

theorem mem_referencesParts {parts : List (Part × Setting)} {part : Part} {p : Setting}
    (hm : (part, p) ∈ parts) {r : Nat} (hr : r ∈ part.references) : r ∈ referencesParts parts :=
  List.mem_flatMap.2 ⟨(part, p), hm, hr⟩

theorem Visits.references_subset {part part' : Part} {p p' : Setting}
    (h : Visits part p part' p') : part'.references ⊆ part.references := by
  induction h with
  | here => exact List.Subset.refl _
  | @inside part p _ _ _ _ hc _ ih =>
    intro r hr
    refine (part.references_perm p).mem_iff.2 (List.mem_append_left _ ?_)
    exact mem_referencesParts hc (ih hr)

theorem nodup_referencesParts_cons {q : Part × Setting} {parts : List (Part × Setting)}
    (hn : (referencesParts (q :: parts)).Nodup) :
    q.1.references.Nodup ∧ (referencesParts parts).Nodup ∧
      ∀ r ∈ q.1.references, r ∉ referencesParts parts := by
  rw [referencesParts, List.flatMap_cons] at hn
  obtain ⟨hq, hparts, hdisjoint⟩ := List.nodup_append.1 hn
  exact ⟨hq, hparts, fun r hr hr' => hdisjoint r hr r hr' rfl⟩

theorem nodup_of_mem_parts {parts : List (Part × Setting)} (hn : (referencesParts parts).Nodup)
    {q : Part × Setting} (hq : q ∈ parts) : q.1.references.Nodup := by
  induction parts with
  | nil => cases hq
  | cons first more ih =>
    obtain ⟨hfirst, hmore, -⟩ := nodup_referencesParts_cons hn
    rcases List.mem_cons.1 hq with rfl | hq
    · exact hfirst
    · exact ih hmore hq

/-- A reference tells the parts of a list apart. -/
theorem eq_of_mem_references {parts : List (Part × Setting)} (hn : (referencesParts parts).Nodup)
    {q q' : Part × Setting} (hq : q ∈ parts) (hq' : q' ∈ parts) {r : Nat}
    (hr : r ∈ q.1.references) (hr' : r ∈ q'.1.references) : q = q' := by
  induction parts with
  | nil => cases hq
  | cons first more ih =>
    obtain ⟨-, hmore, hdisjoint⟩ := nodup_referencesParts_cons hn
    rcases List.mem_cons.1 hq with rfl | hm <;> rcases List.mem_cons.1 hq' with rfl | hm'
    · rfl
    · exact absurd (mem_referencesParts hm' hr') (hdisjoint r hr)
    · exact absurd (mem_referencesParts hm hr) (hdisjoint r hr')
    · exact ih hmore hm hm'

/-! ### A node with references is visited in one setting -/

theorem Expr.sizeOf_operands {e x : Expr} (hx : x ∈ e.operands) : sizeOf x < sizeOf e := by
  cases e with
  | literal | «variable» | this | lambda => cases hx
  | group _ | unary _ _ _ | assign _ _ _ | get _ _ =>
    obtain rfl := List.mem_singleton.1 hx
    clear hx
    decreasing_tactic
  | binary _ _ _ | logical _ _ _ | index _ _ _ | set _ _ _ =>
    simp only [Expr.operands, List.mem_cons, List.not_mem_nil, or_false] at hx
    rcases hx with rfl | rfl <;> decreasing_tactic
  | ternary _ _ _ =>
    simp only [Expr.operands, List.mem_cons, List.not_mem_nil, or_false] at hx
    rcases hx with rfl | rfl | rfl <;> decreasing_tactic
  | call callee paren arguments =>
    simp only [Expr.operands, List.mem_cons] at hx
    rcases hx with rfl | hx <;> decreasing_tactic
  | array bracket elements =>
    have hx : x ∈ elements := hx
    decreasing_tactic

theorem Part.sizeOf_exprs {es : List Expr} {p : Setting} {q : Part × Setting} {n : Nat}
    (hq : q ∈ Part.exprs es p) (hes : ∀ e ∈ es, sizeOf e < n) : sizeOf q.1 < 1 + n := by
  obtain ⟨e, he, rfl⟩ := List.mem_map.1 hq
  have := hes e he
  simp only [Part.expr.sizeOf_spec]
  omega

theorem FunctionDecl.sizeOf_body (decl : FunctionDecl) : sizeOf decl.body < sizeOf decl := by
  obtain ⟨name, parameters, body, keyword⟩ := decl
  decreasing_tactic

/-- Children are smaller than what they are children of. -/
theorem Part.sizeOf_children {part : Part} {p : Setting} {q : Part × Setting}
    (hq : q ∈ part.children p) : sizeOf q.1 < sizeOf part := by
  cases part with
  | expr e =>
    rw [Part.expr.sizeOf_spec]
    cases e with
    | lambda decl =>
      obtain rfl := List.mem_singleton.1 hq
      have := decl.sizeOf_body
      simp only [Part.stmts.sizeOf_spec, Expr.lambda.sizeOf_spec]
      omega
    | _ => exact Part.sizeOf_exprs (p := p) hq fun _ hx => Expr.sizeOf_operands hx
  | stmts ss =>
    cases ss with
    | nil => cases hq
    | cons s rest =>
      simp only [Part.children, List.mem_cons, List.not_mem_nil, or_false] at hq
      rcases hq with rfl | rfl <;> decreasing_tactic
  | stmt s =>
    rw [Part.stmt.sizeOf_spec]
    cases s with
    | block body =>
      obtain rfl := List.mem_singleton.1 hq
      clear hq
      decreasing_tactic
    | expression value | print value =>
      obtain rfl := List.mem_singleton.1 hq
      clear hq
      decreasing_tactic
    | var bindings =>
      refine Part.sizeOf_exprs hq fun e he => ?_
      obtain ⟨⟨name, value⟩, hb, rfl⟩ := List.mem_filterMap.1 he
      have := List.sizeOf_lt_of_mem hb
      simp only [Prod.mk.sizeOf_spec, Option.some.sizeOf_spec, Stmt.var.sizeOf_spec] at this ⊢
      omega
    | function decl =>
      obtain rfl := List.mem_singleton.1 hq
      have := decl.sizeOf_body
      simp only [Part.stmts.sizeOf_spec, Stmt.function.sizeOf_spec]
      omega
    | classDecl name methods =>
      obtain ⟨decl, hm, rfl⟩ := List.mem_map.1 hq
      have := decl.sizeOf_body
      have := List.sizeOf_lt_of_mem hm
      simp only [Part.stmts.sizeOf_spec, Stmt.classDecl.sizeOf_spec]
      omega
    | conditional condition whenTrue whenFalse =>
      cases whenFalse with
      | none =>
        simp only [Part.children, List.mem_cons, List.not_mem_nil, or_false] at hq
        rcases hq with rfl | rfl <;> decreasing_tactic
      | some whenFalse =>
        simp only [Part.children, List.mem_cons, List.not_mem_nil, or_false] at hq
        rcases hq with rfl | rfl | rfl <;> decreasing_tactic
    | loop condition body increment =>
      simp only [Part.children, List.mem_cons] at hq
      rcases hq with rfl | rfl | hq
      · decreasing_tactic
      · decreasing_tactic
      · refine Part.sizeOf_exprs hq fun e he => ?_
        obtain rfl := Option.mem_toList.1 he
        simp only [Stmt.loop.sizeOf_spec, Option.some.sizeOf_spec]
        omega
    | returning keyword value =>
      refine Part.sizeOf_exprs hq fun e he => ?_
      obtain rfl := Option.mem_toList.1 he
      simp only [Stmt.returning.sizeOf_spec, Option.some.sizeOf_spec]
      omega
    | breaking | continuing => cases hq

theorem Visits.sizeOf_le {part part' : Part} {p p' : Setting} (h : Visits part p part' p') :
    sizeOf part' ≤ sizeOf part := by
  induction h with
  | here => exact Nat.le_refl _
  | inside hc _ ih => exact Nat.le_trans ih (Nat.le_of_lt (Part.sizeOf_children hc))

/-- Inside of a child there is no place for the whole. -/
theorem Visits.not_root {part child : Part} {p p' q : Setting} (hc : (child, q) ∈ part.children p)
    (h : Visits child q part p') : False := by
  have hlt := Part.sizeOf_children hc
  have hle := h.sizeOf_le
  exact absurd hle (Nat.not_le_of_lt hlt)

theorem Visits.setting_unique {root part : Part} {p₀ p p' : Setting} (hn : root.references.Nodup)
    {r : Nat} (hr : r ∈ part.references) (h : Visits root p₀ part p) (h' : Visits root p₀ part p') :
    p = p' := by
  induction h with
  | here =>
    cases h' with
    | here => rfl
    | inside hc h' => exact (Visits.not_root hc h').elim
  | @inside root p₀ child q part p hc h ih =>
    cases h' with
    | here => exact (Visits.not_root hc h).elim
    | @inside _ _ child' q' _ _ hc' h' =>
      -- the reference leads into one child only
      have hparts := (List.nodup_append.1 (Part.nodup_children hn p₀)).1
      have heq : (child, q) = (child', q') :=
        eq_of_mem_references hparts hc hc' (h.references_subset hr) (h'.references_subset hr)
      cases heq
      exact ih (nodup_of_mem_parts hparts hc) hr h'

/-! ### Distances after the walk -/

namespace Walked

variable {parts : List (Part × Setting)} {d d' : Distances}

theorem get?_of_not_mem {r : Nat} (h : Walked parts d d') (hr : r ∉ referencesParts parts) :
    d'.get? r = d.get? r := by
  induction h with
  | nil => rfl
  | @cons part p more d d₁ d' hp _ ih =>
    rw [referencesParts, List.flatMap_cons, List.mem_append, not_or] at hr
    have htouch := part.touches p.context d r hr.1
    rw [hp] at htouch
    rw [ih hr.2]
    exact htouch

/-- What a part leaves under one of its references stays there. -/
theorem get?_of_mem {part : Part} {p : Setting} {r : Nat} {x : Option Nat} (h : Walked parts d d')
    (hn : (referencesParts parts).Nodup) (hm : (part, p) ∈ parts) (hr : r ∈ part.references)
    (hpart : ∀ {d₁ d₂ : Distances}, part.resolve p.context d₁ = .passed () d₂ →
      d₂.get? r = x.or (d₁.get? r)) : d'.get? r = x.or (d.get? r) := by
  induction h with
  | nil => cases hm
  | @cons first q more d d₁ d' hp hw ih =>
    obtain ⟨-, hmore, hdisjoint⟩ := nodup_referencesParts_cons hn
    rcases List.mem_cons.1 hm with heq | hm
    · cases heq
      rw [hw.get?_of_not_mem (hdisjoint r hr), hpart hp]
    · have htouch := first.touches q.context d r fun hr' =>
        hdisjoint r hr' (mem_referencesParts hm hr)
      rw [hp] at htouch
      rw [ih hmore hm, ← htouch]
      rfl

end Walked

theorem Part.get?_note {part : Part} {c : Context} {d : Distances} {r : Nat}
    (hr : r ∉ (part.own?.map Prod.fst).toList) : (part.note c d).get? r = d.get? r := by
  unfold Part.note
  split
  · rfl
  · next reference name hown =>
    have hne : reference ≠ r := by
      intro h
      rw [hown] at hr
      exact hr (by simp [h])
    split
    · exact Distances.get?_record_ne hne _ _
    · rfl

/-- After a walk that passes, the distance under every reference is that of its name in the setting
of the reference; what was recorded before stays where the name is not local. -/
theorem Visits.recorded {part part' : Part} {p p' : Setting} {d d' : Distances}
    (hn : part.references.Nodup) (hd : part.resolve p.context d = .passed () d')
    (hv : Visits part p part' p') {r : Nat} {name : Token} (hown : part'.own? = some (r, name)) :
    d'.get? r = (p'.context.distance? name.lexeme).or (d.get? r) := by
  induction hv generalizing d d' with
  | @here part p =>
    obtain ⟨d₁, hw, rfl⟩ := Part.walked_of_resolve hd
    have hnodup := Part.nodup_children hn p
    rw [hown] at hnodup
    have hr : r ∉ referencesParts (part.children p) := fun hr =>
      (List.nodup_append.1 hnodup).2.2 r hr r (by simp) rfl
    rw [← hw.get?_of_not_mem hr, Part.note, hown]
    dsimp only
    cases p.context.distance? name.lexeme with
    | none => rfl
    | some distance => exact Distances.get?_record_self _ _ _
  | @inside part p child q part' p' hc h ih =>
    obtain ⟨d₁, hw, rfl⟩ := Part.walked_of_resolve hd
    obtain ⟨hparts, -, hdisjoint⟩ := List.nodup_append.1 (Part.nodup_children hn p)
    have hr : r ∈ child.references :=
      h.references_subset ((part'.references_perm p').mem_iff.2 (by simp [hown]))
    have hrest : r ∉ (part.own?.map Prod.fst).toList := fun hr' =>
      hdisjoint r (mem_referencesParts hc hr) r hr' rfl
    rw [Part.get?_note hrest]
    exact hw.get?_of_mem hparts hc hr fun hd => ih (nodup_of_mem_parts hparts hc) hd hown

end TreeWalk
