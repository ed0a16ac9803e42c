import Mathlib.Data.List.Perm.Subperm
import TreeWalk.Proofs.Recording

/-!
# The recordings of a walk, in order

`Part.recordings` lists what the walk over a part records: what it records for the children of the part,
and then the distance of the part's own name, if that is local. A walk that passes has recorded all of it,
in this order, and a walk that is rejected a first part of it (`Part.records`), whatever distances there
were before. So if no reference occurs twice in the part, nothing is recorded twice
(`Part.nodup_recordings`).
-/

namespace TreeWalk

/-! ### Recording one after the other -/

/-- Records distances one after the other, each under its reference. -/
def Distances.replay (d : Distances) (log : List (Nat × Nat)) : Distances :=
  log.foldl (fun d entry => d.record entry.1 entry.2) d

theorem Distances.replay_append (d : Distances) (log log' : List (Nat × Nat)) :
    d.replay (log ++ log') = (d.replay log).replay log' :=
  List.foldl_append

namespace Part

/-- The distance of the part's own name under its own reference, if it has one and the name is local. -/
def ownRecording (part : Part) (c : Context) : List (Nat × Nat) :=
  match part.own? with
  | none => []
  | some (reference, name) => (c.distance? name.lexeme).toList.map (reference, ·)

/-- What the walk over a part records, in order. -/
def recordings (part : Part) (p : Setting) : List (Nat × Nat) :=
  (part.children p).attach.flatMap (fun q => q.1.1.recordings q.1.2) ++ part.ownRecording p.context
termination_by sizeOf part
decreasing_by exact Part.sizeOf_children q.2

/-- What the walks over parts record one after the other. -/
def recordingsAll (parts : List (Part × Setting)) : List (Nat × Nat) :=
  parts.flatMap fun q => q.1.recordings q.2

theorem recordings_eq (part : Part) (p : Setting) :
    part.recordings p = recordingsAll (part.children p) ++ part.ownRecording p.context := by
  have hattach : ((part.children p).attach.map Subtype.val).flatMap (fun q => q.1.recordings q.2) =
      recordingsAll (part.children p) := by
    rw [List.attach_map_subtype_val, recordingsAll]
  rw [recordings, ← hattach, List.flatMap_map]

@[simp]
theorem recordingsAll_nil : recordingsAll [] = [] := rfl

@[simp]
theorem recordingsAll_cons (part : Part) (p : Setting) (more : List (Part × Setting)) :
    recordingsAll ((part, p) :: more) = part.recordings p ++ recordingsAll more := rfl

end Part

namespace Walk

variable {α β : Type} {log log' : List (Nat × Nat)}

/-- The walk records `log`, or a first part of it if it is rejected. -/
def Records (log : List (Nat × Nat)) (w : Walk α) : Prop :=
  ∀ d, ∃ done, done <+: log ∧ (w d).distances = d.replay done ∧
    ∀ a d', w d = .passed a d' → done = log

theorem records_pure (a : α) : Records [] (pure a) :=
  fun _ => ⟨[], List.prefix_rfl, rfl, fun _ _ _ => rfl⟩

theorem records_reject (cause : ScopeCause) (t : Token) : Records (α := α) log (reject cause t) :=
  fun _ => ⟨[], List.nil_prefix, rfl, nofun⟩

theorem Records.congr {w : Walk α} (h : w.Records log) (hlog : log = log') : w.Records log' :=
  hlog ▸ h

theorem Records.bind {w : Walk α} {f : α → Walk β} (hw : w.Records log)
    (hf : ∀ d a d', w d = .passed a d' → (f a).Records log') : (w >>= f).Records (log ++ log') := by
  intro d
  obtain ⟨done, hprefix, hdistances, hall⟩ := hw d
  show ∃ done, done <+: log ++ log' ∧ (Walk.bind w f d).distances = _ ∧
    ∀ b d', Walk.bind w f d = .passed b d' → done = log ++ log'
  unfold Walk.bind
  split
  · next a d₁ hd =>
    obtain rfl := hall a d₁ hd
    rw [hd] at hdistances
    obtain ⟨done', hprefix', hdistances', hall'⟩ := hf d a d₁ hd d₁
    refine ⟨done ++ done', (List.prefix_append_right_inj done).2 hprefix', ?_, fun b d' hb => ?_⟩
    · rw [hdistances', Distances.replay_append, ← hdistances]
      rfl
    · rw [hall' b d' hb]
  · next hd =>
    rw [hd] at hdistances
    exact ⟨done, hprefix.trans (List.prefix_append _ _), hdistances, nofun⟩

theorem Records.andPure {w : Walk α} (hw : w.Records log) (b : β) :
    (do let _ ← w; return b).Records log :=
  (hw.bind fun _ _ _ _ => records_pure b).congr (List.append_nil log)

end Walk

namespace Context

theorem records_declare (c : Context) (name : Token) : (c.declare name).Records [] := by
  unfold declare
  split
  · exact Walk.records_pure _
  · split
    · exact Walk.records_reject _ _
    · exact Walk.records_pure _

theorem records_addAll (behind : Context → Token → Context) (c : Context) (names : List Token) :
    (c.addAll behind names).Records [] := by
  induction names generalizing c with
  | nil => exact Walk.records_pure _
  | cons name names ih => exact (records_declare c name).bind fun _ c _ _ => ih (behind c name)

theorem records_locate (c : Context) (part : Part) {reference : Nat} {name : Token}
    (hown : part.own? = some (reference, name)) :
    (c.locate reference name).Records (part.ownRecording c) := by
  unfold locate Part.ownRecording
  rw [hown]
  dsimp only
  split
  · next distance hdistance =>
    rw [hdistance]
    exact fun d => ⟨_, List.prefix_rfl, rfl, fun _ _ _ => rfl⟩
  · next hdistance =>
    rw [hdistance]
    exact Walk.records_pure _

end Context

/-! ### The walk over a tree -/

mutual

theorem Expr.records (e : Expr) (p : Setting) :
    (e.resolve p.context).Records ((Part.expr e).recordings p) := by
  rw [Part.recordings_eq]
  cases e with
  | literal value =>
    rw [Expr.resolve]
    exact Walk.records_pure _
  | group e | unary _ e _ | get e _ =>
    rw [Expr.resolve]
    exact (e.records p).congr
      (by simp [Part.children, Part.exprs, Expr.operands, Part.ownRecording, Part.own?])
  | binary left _ right | logical left _ right | index left _ right | set left _ right =>
    rw [Expr.resolve]
    exact ((left.records p).bind fun _ _ _ _ => right.records p).congr
      (by simp [Part.children, Part.exprs, Expr.operands, Part.ownRecording, Part.own?])
  | ternary condition whenTrue whenFalse =>
    rw [Expr.resolve]
    exact ((condition.records p).bind fun _ _ _ _ =>
      (whenTrue.records p).bind fun _ _ _ _ => whenFalse.records p).congr
      (by simp [Part.children, Part.exprs, Expr.operands, Part.ownRecording, Part.own?])
  | «variable» reference name =>
    rw [Expr.resolve]
    split
    · exact Walk.records_reject _ _
    · exact p.context.records_locate (.expr (.variable reference name)) rfl
  | assign reference name value =>
    rw [Expr.resolve]
    exact ((value.records p).bind fun _ _ _ _ =>
      p.context.records_locate (.expr (.assign reference name value)) rfl).congr
      (by simp [Part.children, Part.exprs, Expr.operands])
  | call callee paren arguments =>
    rw [Expr.resolve]
    exact ((callee.records p).bind fun _ _ _ _ => records_exprs arguments p).congr
      (by simp [Part.children, Part.exprs, Expr.operands, Part.ownRecording, Part.own?])
  | array bracket elements =>
    rw [Expr.resolve]
    exact (records_exprs elements p).congr
      (by simp [Part.children, Expr.operands, Part.ownRecording, Part.own?])
  | this reference keyword =>
    rw [Expr.resolve]
    split
    · exact p.context.records_locate (.expr (.this reference keyword)) rfl
    · exact Walk.records_reject _ _
  | lambda decl =>
    rw [Expr.resolve]
    exact (decl.records .function p).congr (by simp [Part.children, Part.ownRecording, Part.own?])

theorem records_exprs (es : List Expr) (p : Setting) :
    (resolveExprs es p.context).Records (Part.recordingsAll (Part.exprs es p)) := by
  cases es with
  | nil =>
    rw [resolveExprs]
    exact Walk.records_pure _
  | cons e es =>
    rw [resolveExprs]
    exact (e.records p).bind fun _ _ _ _ => records_exprs es p

theorem FunctionDecl.records (decl : FunctionDecl) (kind : Body) (p : Setting) :
    (decl.resolve kind p.context).Records ((Part.stmts decl.body).recordings (p.inBody decl kind)) := by
  obtain ⟨name, parameters, body, keyword⟩ := decl
  rw [FunctionDecl.resolve]
  refine (Context.records_addAll _ _ _).bind fun d c d' hc => ?_
  obtain ⟨rfl, -⟩ := Context.addAll_passed hc
  exact (records_stmts body (p.inBody ⟨name, parameters, body, keyword⟩ kind)).andPure _

theorem Stmt.records (s : Stmt) (p : Setting) :
    (s.resolve p.context).Records ((Part.stmt s).recordings p) := by
  rw [Part.recordings_eq]
  cases s with
  | block body =>
    rw [Stmt.resolve]
    exact ((records_stmts body (p.inBlock body)).andPure _).congr
      (by simp [Part.children, Part.ownRecording, Part.own?])
  | expression value | print value =>
    rw [Stmt.resolve]
    exact ((value.records p).andPure _).congr
      (by simp [Part.children, Part.exprs, Part.ownRecording, Part.own?])
  | var bindings =>
    rw [Stmt.resolve]
    refine (Context.records_addAll _ _ _).bind fun d c d' hc => ?_
    obtain ⟨rfl, -⟩ := Context.addAll_passed hc
    exact ((records_bindings bindings
      { p with context := p.context.declared (bindings.map Prod.fst) }).andPure _).congr
      (by simp [Part.children, Part.ownRecording, Part.own?])
  | function decl =>
    rw [Stmt.resolve]
    refine (Context.records_addAll _ _ _).bind fun d c d' hc => ?_
    obtain ⟨rfl, -⟩ := Context.addAll_passed hc
    exact ((decl.records .function (p.after (.function decl))).andPure _).congr
      (by simp [Part.children, Part.ownRecording, Part.own?])
  | classDecl name methods =>
    rw [Stmt.resolve]
    refine (Context.records_addAll _ _ _).bind fun d c d' hc => ?_
    obtain ⟨rfl, -⟩ := Context.addAll_passed hc
    exact ((records_methods methods (p.after (.classDecl name methods))).andPure _).congr
      (by simp [Part.children, Part.ownRecording, Part.own?])
  | conditional condition whenTrue whenFalse =>
    cases whenFalse with
    | none =>
      rw [Stmt.resolve]
      exact ((condition.records p).bind fun _ _ _ _ => whenTrue.records p).congr
        (by simp [Part.children, Part.ownRecording, Part.own?])
    | some whenFalse =>
      rw [Stmt.resolve]
      have hfalse : ∀ d c d', whenTrue.resolve p.context d = .passed c d' →
          (whenFalse.resolve c).Records ((Part.stmt whenFalse).recordings (p.after whenTrue)) := by
        intro d c d' hc
        obtain rfl := whenTrue.after_of_resolve hc
        exact whenFalse.records (p.after whenTrue)
      exact ((condition.records p).bind fun _ _ _ _ => (whenTrue.records p).bind hfalse).congr
        (by simp [Part.children, Part.ownRecording, Part.own?])
  | loop condition body increment =>
    cases increment with
    | none =>
      rw [Stmt.resolve]
      exact ((condition.records p).bind fun _ _ _ _ => body.records { p with inLoop := true }).congr
        (by simp [Part.children, Part.exprs, Part.ownRecording, Part.own?])
    | some increment =>
      rw [Stmt.resolve]
      have hincrement : ∀ d c d', body.resolve p.context d = .passed c d' →
          (do let _ ← increment.resolve c; return c).Records
            ((Part.expr increment).recordings (p.after body)) := by
        intro d c d' hc
        obtain rfl := body.after_of_resolve hc
        exact (increment.records (p.after body)).andPure _
      exact ((condition.records p).bind fun _ _ _ _ =>
        (body.records { p with inLoop := true }).bind hincrement).congr
        (by simp [Part.children, Part.exprs, Part.ownRecording, Part.own?])
  | returning keyword value =>
    cases value with
    | none =>
      rw [Stmt.resolve]
      split
      · exact Walk.records_reject _ _
      · exact Walk.records_pure _
    | some value =>
      rw [Stmt.resolve]
      split
      · exact Walk.records_reject _ _
      · split
        · exact Walk.records_reject _ _
        · exact ((value.records p).andPure _).congr
            (by simp [Part.children, Part.exprs, Part.ownRecording, Part.own?])
  | breaking | continuing =>
    rw [Stmt.resolve]
    exact Walk.records_pure _

theorem records_stmts (ss : List Stmt) (p : Setting) :
    (resolveStmts ss p.context).Records ((Part.stmts ss).recordings p) := by
  rw [Part.recordings_eq]
  cases ss with
  | nil =>
    rw [resolveStmts]
    exact Walk.records_pure _
  | cons s rest =>
    rw [resolveStmts]
    have hrest : ∀ d c d', s.resolve p.context d = .passed c d' →
        (resolveStmts rest c).Records ((Part.stmts rest).recordings (p.after s)) := by
      intro d c d' hc
      obtain rfl := s.after_of_resolve hc
      exact records_stmts rest (p.after s)
    exact ((s.records p).bind hrest).congr (by simp [Part.children, Part.ownRecording, Part.own?])

theorem records_bindings (bs : List (Token × Option Expr)) (p : Setting) :
    (resolveBindings bs p.context).Records (Part.recordingsAll (Part.exprs (bs.filterMap Prod.snd) p)) := by
  cases bs with
  | nil =>
    rw [resolveBindings]
    exact Walk.records_pure _
  | cons b bs =>
    obtain ⟨name, _ | value⟩ := b
    · rw [resolveBindings]
      exact records_bindings bs p
    · rw [resolveBindings]
      exact (value.records p).bind fun _ _ _ _ => records_bindings bs p

theorem records_methods (decls : List FunctionDecl) (p : Setting) :
    (resolveMethods decls p.context.enterClass).Records (Part.recordingsAll (decls.map fun decl =>
      (.stmts decl.body, (p.inClass decl).inBody decl decl.methodBody))) := by
  cases decls with
  | nil =>
    rw [resolveMethods]
    exact Walk.records_pure _
  | cons decl decls =>
    rw [resolveMethods]
    exact (decl.records _ (p.inClass decl)).bind fun _ _ _ _ => records_methods decls p

end

theorem Part.records (part : Part) (p : Setting) :
    (part.resolve p.context).Records (part.recordings p) := by
  cases part with
  | expr e => exact e.records p
  | stmt s => exact (s.records p).andPure _
  | stmts ss => exact (records_stmts ss p).andPure _

/-! ### Each reference once -/

namespace Part

theorem subperm_recordingsAll {parts : List (Part × Setting)}
    (h : ∀ q ∈ parts, ((q.1.recordings q.2).map Prod.fst).Subperm q.1.references) :
    ((recordingsAll parts).map Prod.fst).Subperm (referencesParts parts) := by
  induction parts with
  | nil => exact .refl _
  | cons q parts ih =>
    obtain ⟨hq, hparts⟩ := List.forall_mem_cons.1 h
    rw [recordingsAll_cons, List.map_append, referencesParts, List.flatMap_cons]
    exact hq.append (ih hparts)

theorem subperm_ownRecording (part : Part) (c : Context) :
    ((part.ownRecording c).map Prod.fst).Subperm (part.own?.map Prod.fst).toList := by
  unfold ownRecording
  split
  · exact List.nil_subperm
  · next reference name hown =>
    rw [hown]
    cases c.distance? name.lexeme with
    | none => exact List.nil_subperm
    | some distance => exact .refl _

/-- A part records under its own references only, and no more often than it carries them. -/
theorem recordings_subperm (part : Part) (p : Setting) :
    ((part.recordings p).map Prod.fst).Subperm part.references := by
  have hchildren : ((recordingsAll (part.children p)).map Prod.fst).Subperm
      (referencesParts (part.children p)) :=
    subperm_recordingsAll fun q hq => q.1.recordings_subperm q.2
  rw [recordings_eq, List.map_append]
  exact (hchildren.append (part.subperm_ownRecording p.context)).trans
    (part.references_perm p).symm.subperm
termination_by sizeOf part
decreasing_by exact Part.sizeOf_children hq

theorem nodup_recordings {part : Part} (h : part.references.Nodup) (p : Setting) :
    ((part.recordings p).map Prod.fst).Nodup := by
  obtain ⟨refs, hperm, hsublist⟩ := part.recordings_subperm p
  exact hperm.nodup_iff.1 (h.sublist hsublist)

end Part

end TreeWalk
