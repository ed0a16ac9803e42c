import TreeWalk.Proofs.Joining
import TreeWalk.Proofs.Positions

/-!
# The order of syntax faults

A fault is noted at the token that reading has come to, so faults are noted in the order of the source
(`Cursor.InOrder`), with one exception: an assignment to something that is no target is reported at
its `=`, but only after the value behind it has been read, and faults in a function body of the value
have been noted by then (`faults_in_order`).

Reading looks at the lines of tokens only to report them. So the tokens may be numbered in place of
their lines, and the numbers that come out are the positions that the faults are reported at.
-/

namespace TreeWalk

open Production

variable {known : Place → Prop} {low : Nat} {c c' : Cursor}

@[simp]
theorem Token.place_line (t : Token) : t.place.line = t.line := by
  unfold Token.place
  split <;> rfl

/-- `f` comes before `g`, unless `g` is about an assignment. -/
def SyntaxFault.Before (f g : SyntaxFault) : Prop :=
  g.cause = .invalidTarget ∨ f.place.line ≤ g.place.line

namespace Cursor

/-- The lines of the tokens that are left and of the end of the source. -/
def lines (c : Cursor) : List Nat :=
  c.rest.map Token.line ++ [c.endLine]

/-- The tokens that are left stand on later and later lines, and their places are known. -/
structure Lined (known : Place → Prop) (c : Cursor) : Prop where
  lines : c.lines.Pairwise (· ≤ ·)
  tokens : ∀ t ∈ c.rest, t.isEnd = false ∧ known t.place
  ending : known ⟨c.endLine, none⟩

/-- A known place between line `low` and the line that reading has come to. -/
structure Passed (known : Place → Prop) (low : Nat) (c : Cursor) (p : Place) : Prop where
  known : known p
  low_le : low ≤ p.line
  le : p.line ≤ c.place.line

/-- Faults have been noted from line `low` on, each where reading had come to. -/
structure InOrder (known : Place → Prop) (low : Nat) (c : Cursor) : Prop extends c.Lined known where
  low_le : low ≤ c.place.line
  passed : ∀ f ∈ c.faults, c.Passed known low f.place
  faults : c.faults.Pairwise SyntaxFault.Before

theorem lines_eq (c : Cursor) : ∃ more, c.lines = c.place.line :: more := by
  obtain ⟨_ | ⟨t, rest⟩, endLine, loops, faults, n⟩ := c
  · exact ⟨[], rfl⟩
  · exact ⟨_, rfl⟩

theorem place_le_of_suffix (h : c.lines.Pairwise (· ≤ ·)) (hs : c'.lines <:+ c.lines) :
    c.place.line ≤ c'.place.line := by
  obtain ⟨more, hmore⟩ := c.lines_eq
  obtain ⟨more', hmore'⟩ := c'.lines_eq
  have hmem : c'.place.line ∈ c.lines := hs.mem (by rw [hmore']; exact List.mem_cons_self)
  rw [hmore] at h hmem
  rcases List.mem_cons.1 hmem with heq | hmem
  · exact Nat.le_of_eq heq.symm
  · exact (List.pairwise_cons.1 h).1 _ hmem

theorem lines_suffix (hrest : c'.rest <:+ c.rest) (hline : c'.endLine = c.endLine) :
    c'.lines <:+ c.lines := by
  obtain ⟨taken, htaken⟩ := hrest
  refine ⟨taken.map Token.line, ?_⟩
  rw [lines, lines, ← htaken, hline, List.map_append, List.append_assoc]

theorem Lined.of_suffix (h : c.Lined known) (hrest : c'.rest <:+ c.rest)
    (hline : c'.endLine = c.endLine) : c'.Lined known :=
  ⟨h.lines.sublist (lines_suffix hrest hline).sublist, fun t ht => h.tokens t (hrest.mem ht),
    hline ▸ h.ending⟩

theorem Lined.place_le (h : c.Lined known) (hrest : c'.rest <:+ c.rest)
    (hline : c'.endLine = c.endLine) : c.place.line ≤ c'.place.line :=
  place_le_of_suffix h.lines (lines_suffix hrest hline)

theorem Lined.known_place (h : c.Lined known) : known c.place := by
  cases hrest : c.rest with
  | nil =>
    rw [place, hrest]
    exact h.ending
  | cons t rest =>
    have ht := h.tokens t (by rw [hrest]; exact List.mem_cons_self)
    rw [place_of_cons hrest ht.1]
    exact ht.2

theorem Passed.mono {p : Place} (h : c.Passed known low p) (hle : c.place.line ≤ c'.place.line) :
    c'.Passed known low p :=
  ⟨h.known, h.low_le, Nat.le_trans h.le hle⟩

namespace InOrder

/-- The place that reading has come to. -/
theorem passed_place (h : c.InOrder known low) : c.Passed known low c.place :=
  ⟨h.known_place, h.low_le, Nat.le_refl _⟩

theorem passed_of_cons (h : c.InOrder known low) {t : Token} {rest : List Token}
    (hrest : c.rest = t :: rest) : c.Passed known low t.place := by
  have ht := h.tokens t (by rw [hrest]; exact List.mem_cons_self)
  rw [← place_of_cons hrest ht.1]
  exact h.passed_place

/-- Dropping tokens. -/
theorem drop (h : c.InOrder known low) {rest : List Token} (hrest : rest <:+ c.rest) :
    ({ c with rest := rest } : Cursor).InOrder known low := by
  have hle : c.place.line ≤ ({ c with rest := rest } : Cursor).place.line :=
    h.place_le hrest rfl
  exact ⟨h.of_suffix hrest rfl, Nat.le_trans h.low_le hle, fun f hf => (h.passed f hf).mono hle,
    h.faults⟩

theorem take (h : c.InOrder known low) {t : Token} {rest : List Token} (hrest : c.rest = t :: rest) :
    ({ c with rest := rest } : Cursor).InOrder known low :=
  h.drop (hrest ▸ List.suffix_cons t rest)

/-- Noting one more fault. -/
theorem note (h : c.InOrder known low) {fault : SyntaxFault} (hf : c.Passed known low fault.place)
    (hbefore : ∀ f ∈ c.faults, f.Before fault) :
    ({ c with faults := c.faults ++ [fault] } : Cursor).InOrder known low := by
  refine ⟨h.of_suffix (List.suffix_refl _) rfl, h.low_le, fun f hmem => ?_, ?_⟩
  · rcases List.mem_append.1 hmem with hmem | hmem
    · exact (h.passed f hmem).mono (Nat.le_refl _)
    · rw [List.mem_singleton.1 hmem]
      exact hf.mono (Nat.le_refl _)
  · refine List.pairwise_append.2 ⟨h.faults, List.pairwise_singleton _ _, fun f hmem g hg => ?_⟩
    rw [List.mem_singleton.1 hg]
    exact hbefore f hmem

/-- A fault where reading has come to. -/
theorem note_here (h : c.InOrder known low) (cause : SyntaxCause) :
    ({ c with faults := c.faults ++ [⟨cause, c.place⟩] } : Cursor).InOrder known low :=
  h.note h.passed_place fun f hf => .inr (h.passed f hf).le

end InOrder

end Cursor

/-- The cursor behind a reply, with the fault of a failure noted. -/
def Reply.noted {α : Type} : Reply α → Cursor
  | .done _ c => c
  | .failed fault c => { c with faults := c.faults ++ [fault] }

namespace Production

variable {α β : Type} {last : Option Token} {seen : List Token}

/-- Faults are noted in order, where the tokens `seen` have been passed and no fault has been noted
behind the token `last`. -/
def Orderly (known : Place → Prop) (last : Option Token) (seen : List Token) (p : Production α) :
    Prop :=
  ∀ low c, c.InOrder known low → (∀ t ∈ seen, c.Passed known low t.place) →
    (∀ t, last = some t → c.Passed known low t.place ∧ ∀ f ∈ c.faults, f.place.line ≤ t.line) →
    (p c).noted.InOrder known low

theorem orderly_bind {p : Production α} {f : α → Production β} (hsteady : p.Steady)
    (hp : Orderly known last seen p) (hf : ∀ a, Orderly known none seen (f a)) :
    Orderly known last seen (p >>= f) := by
  intro low c hc hseen hlast
  have h := hp low c hc hseen hlast
  have hfollows := hsteady c
  show (Production.bind p f c).noted.InOrder known low
  unfold Production.bind
  split
  · next a c' hreply =>
    rw [hreply] at h hfollows
    have hle := hc.place_le hfollows.rest hfollows.endLine
    exact hf a low c' h (fun t ht => (hseen t ht).mono hle) nofun
  · next hreply =>
    rw [hreply] at h
    exact h

theorem orderly_expect (q : Token → Bool) (what : Expected) :
    Orderly known last seen (expect q what) := by
  intro low c hc _ _
  unfold expect
  split
  · next hrest =>
    split
    · exact hc.take hrest
    · exact hc.note_here _
  · exact hc.note_here _

theorem orderly_accept {q : Token → Bool} {f : Option Token → Production β}
    (hnone : Orderly known last seen (f none))
    (hsome : ∀ t, Orderly known none (t :: seen) (f (some t))) :
    Orderly known last seen (accept? q >>= f) := by
  intro low c hc hseen hlast
  show (Production.bind (accept? q) f c).noted.InOrder known low
  unfold Production.bind accept?
  cases hrest : c.rest with
  | nil => exact hnone low c hc hseen hlast
  | cons t rest =>
    by_cases hq : q t
    · simp only [hq, if_true]
      have hle : c.place.line ≤ ({ c with rest := rest } : Cursor).place.line :=
        hc.place_le (hrest ▸ List.suffix_cons t rest) rfl
      have ht := hc.passed_of_cons hrest
      refine hsome t low _ (hc.take hrest) (fun t' ht' => ?_) nofun
      rcases List.mem_cons.1 ht' with rfl | ht'
      · exact ht.mono hle
      · exact (hseen t' ht').mono hle
    · simp only [hq]
      exact hnone low c hc hseen hlast

theorem orderly_look {next : Token → Option (Production α)} {other : Production α}
    (hnext : ∀ t p, next t = some p → Orderly known (some t) (t :: seen) p)
    (hother : Orderly known last seen other) : Orderly known last seen (look next other) := by
  intro low c hc hseen hlast
  unfold look
  split
  · exact hother low c hc hseen hlast
  · next t rest hrest =>
    split
    · next p hp =>
      have hle : c.place.line ≤ ({ c with rest := rest } : Cursor).place.line :=
        hc.place_le (hrest ▸ List.suffix_cons t rest) rfl
      have ht := hc.passed_of_cons hrest
      have hline : c.place.line = t.line := by
        rw [Cursor.place_of_cons hrest (hc.tokens t (by rw [hrest]; exact List.mem_cons_self)).1,
          Token.place_line]
      refine hnext t p hp low _ (hc.take hrest) (fun t' ht' => ?_) (fun t' ht' => ?_)
      · rcases List.mem_cons.1 ht' with rfl | ht'
        · exact ht.mono hle
        · exact (hseen t' ht').mono hle
      · cases ht'
        exact ⟨ht.mono hle, fun f hf => hline ▸ (hc.passed f hf).le⟩
    · exact hother low c hc hseen hlast

theorem orderly_insideLoop (t : Token) (outside : SyntaxCause) {p : Production α}
    (hp : Orderly known none seen p) : Orderly known (some t) seen (insideLoop t outside p) := by
  intro low c hc hseen hlast
  obtain ⟨ht, hfaults⟩ := hlast t rfl
  unfold insideLoop
  split
  · exact hc.note ht fun f hf => .inr (by rw [Token.place_line]; exact hfaults f hf)
  · exact hp low c hc hseen nofun

theorem orderly_withLoops {p : Production α} (enter : Nat → Nat) (leave : Nat → Nat → Nat)
    (hp : Orderly known last seen p) : Orderly known last seen (withLoops enter leave p) := by
  intro low c hc hseen hlast
  have h := hp low { c with loops := enter c.loops }
    ⟨hc.of_suffix (List.suffix_refl _) rfl, hc.low_le,
      fun f hf => (hc.passed f hf).mono (Nat.le_refl _), hc.faults⟩
    (fun t ht => (hseen t ht).mono (Nat.le_refl _))
    (fun t ht => ⟨(hlast t ht).1.mono (Nat.le_refl _), (hlast t ht).2⟩)
  unfold withLoops
  split
  · next hreply =>
    rw [hreply] at h
    exact ⟨h.of_suffix (List.suffix_refl _) rfl, h.low_le,
      fun f hf => (h.passed f hf).mono (Nat.le_refl _), h.faults⟩
  · next hreply =>
    rw [hreply] at h
    exact ⟨h.of_suffix (List.suffix_refl _) rfl, h.low_le,
      fun f hf => (h.passed f hf).mono (Nat.le_refl _), h.faults⟩

theorem orderly_recovering {p : Production α} (hp : Orderly known last seen p) :
    Orderly known last seen (recovering p) := by
  intro low c hc hseen hlast
  have h := hp low c hc hseen hlast
  unfold recovering
  split
  · next hreply =>
    rw [hreply] at h
    exact h
  · next hreply =>
    rw [hreply] at h
    exact h.drop (resume_suffix _)

/-- Only the fault about an assignment is reported behind the place that reading has come to. -/
theorem Built.orderly {p : Production α} (h : Built last seen p) : Orderly known last seen p := by
  induction h with
  | pure a => exact fun _ _ hc _ _ => hc
  | bind hp _ ihp ihf => exact orderly_bind hp.steady ihp ihf
  | fail cause => exact fun _ _ hc _ _ => hc.note_here cause
  | noTarget hmem => exact fun _ _ hc hseen _ => hc.note (hseen _ hmem) fun _ _ => .inl rfl
  | check => exact fun _ _ hc _ _ => hc
  | endsBlock => exact fun _ _ hc _ _ => hc
  | startsFunction => exact fun _ _ hc _ _ => hc
  | freshReference =>
    exact fun _ _ hc _ _ => ⟨hc.of_suffix (List.suffix_refl _) rfl, hc.low_le,
      fun f hf => (hc.passed f hf).mono (Nat.le_refl _), hc.faults⟩
  | expect q what => exact orderly_expect q what
  | accept _ _ ihnone ihsome => exact orderly_accept ihnone ihsome
  | look _ _ ihnext ihother => exact orderly_look ihnext ihother
  | insideLoop _ ih => exact orderly_insideLoop _ _ ih
  | withLoops _ _ ih => exact orderly_withLoops _ _ ih
  | recovering _ ih => exact orderly_recovering ih

end Production

/-! ### All faults of a reading -/

/-- The faults of all items. -/
def itemFaults (items : List (Except Rejection Stmt)) : List SyntaxFault :=
  items.flatMap fun
    | .ok _ => []
    | .error r => r.toList

theorem toList_of_collect {items : List (Except Rejection Stmt)} {r : Rejection}
    (h : collect items = .error r) : r.toList = itemFaults items := by
  have hok : ∀ items ss, collect items = .ok ss → itemFaults items = [] := by
    intro items
    induction items with
    | nil => exact fun _ _ => rfl
    | cons item items ih =>
      intro ss hss
      obtain ⟨s, ss', rfl, hss', rfl⟩ := collect_cons_ok hss
      exact ih ss' hss'
  induction items generalizing r with
  | nil => cases h
  | cons item items ih =>
    cases item with
    | ok s =>
      rw [collect] at h
      cases hitems : collect items with
      | ok ss => rw [hitems] at h; cases h
      | error r' =>
        rw [hitems] at h
        cases h
        exact ih hitems
    | error r' =>
      rw [collect] at h
      show r.toList = r'.toList ++ itemFaults items
      split at h
      · next hitems =>
        cases h
        rw [hok _ _ hitems, List.append_nil]
      · next r'' hitems =>
        cases h
        rw [← ih hitems]
        rfl

/-- The faults of one item are in order, and reading goes on behind them. -/
theorem Cursor.next?_inOrder {item : Except Rejection Stmt} (h : c.next? = some (item, c'))
    (hc : c.Lined known) (hfaults : c.faults = []) : c'.Lined known ∧ c'.faults = [] ∧
      c.place.line ≤ c'.place.line ∧ ∀ r, item = .error r → r.toList.Pairwise SyntaxFault.Before ∧
        ∀ f ∈ r.toList, c'.Passed known c.place.line f.place := by
  have hstart : c.InOrder known c.place.line :=
    ⟨hc, Nat.le_refl _, by rw [hfaults]; nofun, by rw [hfaults]; exact .nil⟩
  have hnoted := ((allComposed c.fuel).declaration none []).orderly _ c hstart nofun nofun
  obtain ⟨-, ⟨s, c₁, hdone, rfl, hitem⟩ | ⟨fault, c₁, r, hfailed, rfl, hr, rfl⟩⟩ :=
    Cursor.next?_cases h
  · rw [hdone] at hnoted
    refine ⟨hnoted.of_suffix (List.suffix_refl _) rfl, rfl, hnoted.low_le, ?_⟩
    rcases hitem with ⟨-, rfl⟩ | ⟨r, hr, rfl⟩
    · nofun
    · intro r' hr'
      cases hr'
      rw [hr]
      exact ⟨hnoted.faults, fun f hf => (hnoted.passed f hf).mono (Nat.le_refl _)⟩
  · rw [hfailed] at hnoted
    have hend := hnoted.drop (resume_suffix c₁.rest)
    refine ⟨hend.of_suffix (List.suffix_refl _) rfl, rfl, hend.low_le, ?_⟩
    intro r' hr'
    cases hr'
    rw [hr]
    exact ⟨hend.faults, fun f hf => (hend.passed f hf).mono (Nat.le_refl _)⟩

theorem Cursor.items_inOrder (count : Nat) (hc : c.Lined known) (hfaults : c.faults = []) :
    (itemFaults (c.items count).1).Pairwise SyntaxFault.Before ∧
      ∀ f ∈ itemFaults (c.items count).1, known f.place ∧ c.place.line ≤ f.place.line := by
  induction count generalizing c with
  | zero => exact ⟨.nil, List.forall_mem_nil _⟩
  | succ count ih =>
    rw [Cursor.items]
    cases hnext : c.next? with
    | none => exact ⟨.nil, List.forall_mem_nil _⟩
    | some next =>
      obtain ⟨item, c₁⟩ := next
      obtain ⟨hc₁, hfaults₁, hle, hitem⟩ := Cursor.next?_inOrder hnext hc hfaults
      obtain ⟨hpairs, hall⟩ := ih hc₁ hfaults₁
      cases item with
      | ok s => exact ⟨hpairs, fun f hf => ⟨(hall f hf).1, Nat.le_trans hle (hall f hf).2⟩⟩
      | error r =>
        obtain ⟨hr, hpassed⟩ := hitem r rfl
        refine ⟨List.pairwise_append.2 ⟨hr, hpairs, fun f hf g hg => ?_⟩, fun f hf => ?_⟩
        · exact .inr (Nat.le_trans (hpassed f hf).le (hall g hg).2)
        · rcases List.mem_append.1 hf with hf | hf
          · exact ⟨(hpassed f hf).known, (hpassed f hf).low_le⟩
          · exact ⟨(hall f hf).1, Nat.le_trans hle (hall f hf).2⟩

theorem Cursor.lined_start {tokens : List Token} (hsorted : (tokens.map Token.line).Pairwise (· ≤ ·))
    (hend : ∃ t ∈ tokens, t.isEnd) (n : Nat) :
    (Cursor.start tokens n).Lined fun p => ∃ t ∈ tokens, p = t.place := by
  obtain ⟨eof, heof⟩ : ∃ eof, tokens.find? Token.isEnd = some eof := by
    obtain ⟨t, ht, hkind⟩ := hend
    exact Option.isSome_iff_exists.1 (List.find?_isSome.2 ⟨t, ht, hkind⟩)
  obtain ⟨hkind, before, after, htokens, hbefore⟩ := List.find?_eq_some_iff_append.1 heof
  have hrest : (Cursor.start tokens n).rest = before := by
    show tokens.takeWhile (fun t => !t.isEnd) = before
    rw [htokens, List.takeWhile_append_of_pos hbefore]
    simp [hkind]
  have hline : (Cursor.start tokens n).endLine = eof.line := by
    rw [Cursor.start, heof]
  refine ⟨?_, fun t ht => ?_, ⟨eof, by rw [htokens]; simp, ?_⟩⟩
  · rw [Cursor.lines, hrest, hline]
    refine hsorted.sublist ?_
    rw [htokens, List.map_append, List.map_cons]
    exact List.Sublist.append_left (List.singleton_sublist.2 List.mem_cons_self) _
  · rw [hrest] at ht
    have hmem : t ∈ tokens := by rw [htokens]; exact List.mem_append_left _ ht
    exact ⟨by simpa using hbefore t ht, t, hmem, rfl⟩
  · rw [hline, Token.place_of_isEnd hkind]

/-- If tokens stand on later and later lines, their faults do, but for those about assignments. -/
theorem parseProgram_inOrder {tokens : List Token} {n : Nat} {r : Rejection}
    (hsorted : (tokens.map Token.line).Pairwise (· ≤ ·)) (hend : ∃ t ∈ tokens, t.isEnd)
    (h : (parseProgram tokens n).1 = .error r) : r.toList.Pairwise SyntaxFault.Before ∧
      ∀ f ∈ r.toList, ∃ t ∈ tokens, f.place = t.place := by
  have hitems := Cursor.items_inOrder tokens.length (Cursor.lined_start hsorted hend n) rfl
  rw [toList_of_collect h]
  exact ⟨hitems.1, fun f hf => (hitems.2 f hf).1⟩

/-! ### Lines of a scan -/

namespace Lexer

/-- A piece ends on its line or on a later one, and a token stands on the line where it ends. -/
def Piece.Onward (line : Nat) (piece : Piece) : Prop :=
  line ≤ piece.line ∧ ∀ t, piece.item = .token t → t.line = piece.line

theorem onward_token (kind : TokenKind) (lexeme : String) (line : Nat) (rest : List UInt8) :
    (Piece.mk (.token ⟨kind, lexeme, line⟩) line rest).Onward line := by
  refine ⟨Nat.le_refl _, fun t ht => ?_⟩
  cases ht
  rfl

theorem onward_oneOrTwo (line : Nat) (b : UInt8) (rest : List UInt8) (one : Symbol) (second : Char)
    (two : Symbol) : (oneOrTwo line b rest one second two).Onward line := by
  unfold oneOrTwo
  split
  · split <;> exact onward_token _ _ _ _
  · exact onward_token _ _ _ _

theorem onward_slash (line : Nat) (rest : List UInt8) : (slash line rest).Onward line := by
  unfold slash
  split
  · exact ⟨Nat.le_refl _, nofun⟩
  · exact onward_token _ _ _ _

theorem onward_string (line : Nat) (bytes : List UInt8) : (string line bytes).Onward line := by
  unfold string
  dsimp only
  split
  · exact ⟨Nat.le_add_right _ _, nofun⟩
  · split
    · exact ⟨Nat.le_add_right _ _, nofun⟩
    · refine ⟨Nat.le_add_right _ _, fun t ht => ?_⟩
      cases ht
      rfl

theorem onward_number (line : Nat) (bytes : List UInt8) : (number line bytes).Onward line := by
  unfold number
  dsimp only
  split
  · split <;> exact onward_token _ _ _ _
  · exact onward_token _ _ _ _

theorem onward_next (line : Nat) (b : UInt8) (rest : List UInt8) : (next line b rest).Onward line := by
  unfold next
  split
  · exact onward_token _ _ _ _
  · split
    · exact onward_oneOrTwo _ _ _ _ _ _
    · split
      · exact ⟨Nat.le_refl _, nofun⟩
      · split
        · exact ⟨Nat.le_succ _, nofun⟩
        · split
          · exact onward_slash _ _
          · split
            · exact onward_string _ _
            · split
              · exact onward_number _ _
              · split
                · exact onward_token _ _ _ _
                · exact ⟨Nat.le_refl _, nofun⟩

theorem firstFault_cons_ok {t : Token} {items : List (Except LexFault Token)} {ts : List Token}
    (h : firstFault (.ok t :: items) = .ok ts) : ∃ ts', firstFault items = .ok ts' ∧ ts = t :: ts' := by
  rw [firstFault] at h
  cases hitems : firstFault items with
  | ok ts' =>
    rw [hitems] at h
    cases h
    exact ⟨ts', rfl, rfl⟩
  | error f =>
    rw [hitems] at h
    cases h

theorem scanFrom_onward {fuel line : Nat} {bytes : List UInt8} {ts : List Token}
    (h : firstFault (scanFrom fuel line bytes) = .ok ts) :
    (ts.map Token.line).Pairwise (· ≤ ·) ∧ ∀ t ∈ ts, line ≤ t.line := by
  have hend : ∀ line ts, firstFault [.ok (Token.endOn line)] = .ok ts →
      (ts.map Token.line).Pairwise (· ≤ ·) ∧ ∀ t ∈ ts, line ≤ t.line := by
    intro line ts h
    cases h
    exact ⟨List.pairwise_singleton _ _, fun t ht => by rw [List.mem_singleton.1 ht]; exact Nat.le_refl _⟩
  induction fuel generalizing line bytes ts with
  | zero => exact hend line ts h
  | succ fuel ih =>
    cases bytes with
    | nil => exact hend line ts h
    | cons b bytes =>
      obtain ⟨hle, htoken⟩ := onward_next line b bytes
      rw [scanFrom] at h
      cases hitem : (next line b bytes).item with
      | skipped =>
        simp only [hitem] at h
        obtain ⟨hsorted, hlines⟩ := ih h
        exact ⟨hsorted, fun t ht => Nat.le_trans hle (hlines t ht)⟩
      | token t =>
        simp only [hitem] at h
        obtain ⟨ts', hts', rfl⟩ := firstFault_cons_ok h
        obtain ⟨hsorted, hlines⟩ := ih hts'
        have ht := htoken t hitem
        refine ⟨List.pairwise_cons.2 ⟨fun l hl => ?_, hsorted⟩, fun t' ht' => ?_⟩
        · obtain ⟨t', ht', rfl⟩ := List.mem_map.1 hl
          exact ht ▸ hlines t' ht'
        · rcases List.mem_cons.1 ht' with rfl | ht'
          · exact ht ▸ hle
          · exact Nat.le_trans hle (hlines t' ht')
      | fault f =>
        simp only [hitem] at h
        cases h

/-- The tokens of a source stand on later and later lines. -/
theorem tokens_sorted {source : List UInt8} {ts : List Token} (h : tokens source = .ok ts) :
    (ts.map Token.line).Pairwise (· ≤ ·) :=
  (scanFrom_onward h).1

end Lexer

/-! ### Positions -/

/-- The tokens with their positions, counted from one, for lines. -/
def numbered (tokens : List Token) : List Token :=
  tokens.mapIdx fun i t => { t with line := i + 1 }

/-- Gives the number of a position back the line of the token there. -/
def numbering (tokens : List Token) : Renaming where
  reference := id
  line
    | 0 => 0
    | i + 1 => (tokens[i]?.map Token.line).getD 0
  line_zero := rfl

/-- The positions of the tokens at which the faults of a reading are reported. -/
def faultPositions (tokens : List Token) (n : Nat) : List Nat :=
  match (parseProgram (numbered tokens) n).1 with
  | .ok _ => []
  | .error r => r.toList.map fun f => f.place.line - 1

variable {tokens : List Token} {n : Nat} {r : Rejection}

theorem numbered_rename (tokens : List Token) :
    (numbered tokens).map (Token.rename (numbering tokens)) = tokens := by
  refine List.ext_getElem (by simp [numbered]) fun i _ hi => ?_
  simp [numbered, Token.rename, numbering, hi]

theorem mem_numbered {t : Token} (h : t ∈ numbered tokens) :
    ∃ i, ∃ hi : i < tokens.length, t = { tokens[i] with line := i + 1 } := by
  obtain ⟨i, hi, rfl⟩ := List.mem_iff_getElem.1 h
  exact ⟨i, by simpa [numbered] using hi, by simp [numbered]⟩

theorem numbered_sorted (tokens : List Token) :
    ((numbered tokens).map Token.line).Pairwise (· ≤ ·) := by
  refine List.pairwise_iff_getElem.2 fun i j hi hj hij => ?_
  simp only [numbered, List.getElem_map, List.getElem_mapIdx]
  omega

theorem numbered_end (h : ∃ t ∈ tokens, t.isEnd) : ∃ t ∈ numbered tokens, t.isEnd := by
  obtain ⟨t, ht, hkind⟩ := h
  obtain ⟨i, hi, rfl⟩ := List.mem_iff_getElem.1 ht
  exact ⟨_, List.mem_mapIdx.2 ⟨i, hi, rfl⟩, hkind⟩

/-- Reading the numbered tokens goes wrong where reading the tokens does. -/
theorem parseProgram_numbered (hend : ∃ t ∈ tokens, t.isEnd)
    (h : (parseProgram tokens n).1 = .error r) :
    ∃ r', (parseProgram (numbered tokens) n).1 = .error r' ∧ r = r'.rename (numbering tokens) := by
  have hline : (numbered tokens).find? Token.isEnd = none → (numbering tokens).line 1 = 1 := by
    intro hnone
    obtain ⟨t, ht, hkind⟩ := numbered_end hend
    exact absurd hkind (List.find?_eq_none.1 hnone t ht)
  have hcounts : (numbering tokens).Counts := fun _ => rfl
  have hrename := congrArg Prod.fst (parseProgram_rename hcounts hline n)
  rw [numbered_rename] at hrename
  rw [show (numbering tokens).reference n = n from rfl, h] at hrename
  cases hread : (parseProgram (numbered tokens) n).1 with
  | ok ss =>
    rw [hread] at hrename
    cases hrename
  | error r' =>
    rw [hread] at hrename
    exact ⟨r', rfl, Except.error.inj hrename⟩

theorem toList_rename (ρ : Renaming) (r : Rejection) :
    (r.rename ρ).toList = r.toList.map (SyntaxFault.rename ρ) :=
  rfl

/-- Faults are reported at tokens of the source, one after the other, but for those about assignments
to what is no target. -/
theorem faults_in_order {source : List UInt8} {tokens : List Token} {n : Nat} {r : Rejection}
    (hscan : Lexer.tokens source = .ok tokens) (h : (parseProgram tokens n).1 = .error r) :
    (faultPositions tokens n).length = r.toList.length ∧
    (∀ f ∈ (faultPositions tokens n).zip r.toList,
      tokens[f.1]?.map Token.place = some f.2.place) ∧
    ((faultPositions tokens n).zip r.toList).Pairwise fun f g => g.2.cause = .invalidTarget ∨
      (f.1 ≤ g.1 ∧ f.2.place.line ≤ g.2.place.line) := by
  have hend : ∃ t ∈ tokens, t.isEnd := by
    obtain ⟨ts, rfl, -⟩ := Lexer.terminated_tokens hscan
    exact ⟨_, List.mem_append_right _ List.mem_cons_self, rfl⟩
  have hsorted := Lexer.tokens_sorted hscan
  -- The order of lines, for the numbered tokens, is the order of positions.
  obtain ⟨r', hr', rfl⟩ := parseProgram_numbered hend h
  obtain ⟨hbefore, hplaces⟩ := parseProgram_inOrder (numbered_sorted tokens) (numbered_end hend) hr'
  have hpositions : faultPositions tokens n = r'.toList.map fun f => f.place.line - 1 := by
    rw [faultPositions, hr']
  -- A fault of the numbered tokens is at the token of its number.
  have hat : ∀ f ∈ r'.toList, ∃ i, ∃ hi : i < tokens.length, f.place.line = i + 1 ∧
      (f.rename (numbering tokens)).place = tokens[i].place := by
    intro f hf
    obtain ⟨t, ht, hplace⟩ := hplaces f hf
    obtain ⟨i, hi, rfl⟩ := mem_numbered ht
    refine ⟨i, hi, by rw [hplace, Token.place_line], ?_⟩
    show f.place.rename (numbering tokens) = _
    rw [hplace, ← Token.place_rename]
    simp [Token.rename, numbering, hi]
  rw [hpositions, toList_rename]
  refine ⟨by simp, ?_, ?_⟩
  · intro located hmem
    rw [List.zip_map', List.mem_map] at hmem
    obtain ⟨f, hf, rfl⟩ := hmem
    obtain ⟨i, hi, hline, hplace⟩ := hat f hf
    simp [hline, hplace, hi]
  · rw [List.zip_map', List.pairwise_map]
    refine hbefore.imp_of_mem fun {f g} hf hg hfg => ?_
    rcases hfg with hcause | hle
    · exact .inl hcause
    · obtain ⟨i, hi, hline, hplace⟩ := hat f hf
      obtain ⟨j, hj, hline', hplace'⟩ := hat g hg
      refine .inr ⟨Nat.sub_le_sub_right hle 1, ?_⟩
      rw [hplace, hplace', Token.place_line, Token.place_line]
      rw [hline, hline'] at hle
      rcases Nat.lt_or_eq_of_le (Nat.le_of_succ_le_succ hle) with hij | rfl
      · have := List.pairwise_iff_getElem.1 hsorted i j (by simpa using hi) (by simpa using hj) hij
        simpa using this
      · exact Nat.le_refl _

/-- The faults of a source that is rejected and the positions of their tokens. -/
def reported (source : List UInt8) : Option (List Nat × List SyntaxFault) :=
  match Lexer.tokens source with
  | .error _ => none
  | .ok tokens =>
    match (parseProgram tokens 0).1 with
    | .ok _ => none
    | .error r => some (faultPositions tokens 0, r.toList)

theorem rejected_of_reported {source : List UInt8} {positions : List Nat} {faults : List SyntaxFault}
    (h : reported source = some (positions, faults)) : ∃ tokens r,
    Lexer.tokens source = .ok tokens ∧ (parseProgram tokens 0).1 = .error r ∧
      faultPositions tokens 0 = positions ∧ r.toList = faults := by
  unfold reported at h
  split at h
  · cases h
  · next tokens hscan =>
    split at h
    · cases h
    · next r hread =>
      obtain ⟨hpositions, hfaults⟩ := Prod.mk.inj (Option.some.inj h)
      exact ⟨tokens, r, hscan, hread, hpositions, hfaults⟩

/-- An assignment to `nil` of a function with a fault in its body. -/
def lateTarget : List UInt8 :=
  "nil =\nfun () \x7b\nvar ;\n\x7d;".toUTF8.toList

theorem reported_lateTarget : reported lateTarget = some ([7, 1],
    [⟨.expected .variableName, ⟨3, some ";"⟩⟩, ⟨.invalidTarget, ⟨1, some "="⟩⟩]) := by
  decide +kernel

/-- Two statements with a fault each. -/
def twoFaults : List UInt8 :=
  "var ;\nprint ;".toUTF8.toList

theorem reported_twoFaults : reported twoFaults = some ([1, 3],
    [⟨.expected .variableName, ⟨1, some ";"⟩⟩, ⟨.expected .expression, ⟨2, some ";"⟩⟩]) := by
  decide +kernel

/-- The fault at the second token is reported after the one at the eighth; the faults of the two
statements come one after the other. -/
theorem faults_in_order_lateTarget : (∃ tokens r, Lexer.tokens lateTarget = .ok tokens ∧
      (parseProgram tokens 0).1 = .error r ∧ r.toList.length = 2 ∧
      faultPositions tokens 0 = [7, 1] ∧
      ((faultPositions tokens 0).zip r.toList).Pairwise fun f g => g.2.cause = .invalidTarget ∨
        (f.1 ≤ g.1 ∧ f.2.place.line ≤ g.2.place.line)) ∧
    ∃ tokens r, Lexer.tokens twoFaults = .ok tokens ∧ (parseProgram tokens 0).1 = .error r ∧
      r.toList.length = 2 ∧ faultPositions tokens 0 = [1, 3] ∧
      ((faultPositions tokens 0).zip r.toList).Pairwise fun f g =>
        f.1 ≤ g.1 ∧ f.2.place.line ≤ g.2.place.line := by
  constructor
  · obtain ⟨tokens, r, hscan, hread, hpositions, hfaults⟩ :=
      rejected_of_reported reported_lateTarget
    obtain ⟨-, -, horder⟩ := faults_in_order hscan hread
    exact ⟨tokens, r, hscan, hread, by rw [hfaults]; rfl, hpositions, horder⟩
  · obtain ⟨tokens, r, hscan, hread, hpositions, hfaults⟩ :=
      rejected_of_reported reported_twoFaults
    obtain ⟨-, -, horder⟩ := faults_in_order hscan hread
    have hcauses : ∀ f ∈ r.toList, f.cause ≠ .invalidTarget := by
      rw [hfaults]
      decide
    refine ⟨tokens, r, hscan, hread, by rw [hfaults]; rfl, hpositions, ?_⟩
    exact horder.imp_of_mem fun _ hg hfg => hfg.resolve_left (hcauses _ (List.of_mem_zip hg).2)

/-- Not all faults are reported in the order of the source. -/
theorem faults_out_of_order : ¬∀ (source : List UInt8) (tokens : List Token) (n : Nat) (r : Rejection),
    Lexer.tokens source = .ok tokens → (parseProgram tokens n).1 = .error r → r.more ≠ [] →
    (faultPositions tokens n).Pairwise (· ≤ ·) ∧
      (r.toList.map fun f => f.place.line).Pairwise (· ≤ ·) := by
  intro hall
  obtain ⟨tokens, r, hscan, hread, hpositions, hfaults⟩ := rejected_of_reported reported_lateTarget
  have hmore : r.more ≠ [] := by
    intro hnil
    rw [Rejection.toList, hnil] at hfaults
    simp at hfaults
  have horder := (hall lateTarget tokens 0 r hscan hread hmore).1
  rw [hpositions] at horder
  exact absurd horder (by decide)

end TreeWalk
