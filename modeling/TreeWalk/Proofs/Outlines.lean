import TreeWalk.Proofs.Lexemes

/-!
# Outlines

An outline is what a tree is shown as: a word, or parts in parentheses with a blank between one and
the next. The words are names, numbers and operators, or they are quoted; what stands in quotes may
itself hold blanks and parentheses. Still the text of an outline tells where each of its parts ends,
so different outlines have different texts (`Outline.eq_of_chars_eq`).
-/

namespace TreeWalk

inductive Outline where
  | word (text : String)
  | list (parts : List Outline)

/-- The characters that end a word that is not quoted, and the quote. -/
def isDelimiter (c : Char) : Bool :=
  c == '(' || c == ')' || c == ' ' || c == '"'

/-- The characters of a word that can be told from what stands around it. -/
inductive Distinct : List Char → Prop
  | bare {cs : List Char} (hne : cs ≠ []) (hcs : ∀ c ∈ cs, isDelimiter c = false) : Distinct cs
  | quoted {cs : List Char} (hcs : '"' ∉ cs) : Distinct ('"' :: (cs ++ ['"']))

theorem Distinct.of_all {cs : List Char} (hne : cs ≠ []) (hcs : cs.all fun c => !isDelimiter c) :
    Distinct cs :=
  .bare hne fun c hc => by simpa using List.all_eq_true.1 hcs c hc

/-- What stands behind a part: nothing, a blank or a closing parenthesis. -/
def Ends (rest : List Char) : Prop :=
  ∀ c ∈ rest.head?, c = ' ' ∨ c = ')'

mutual

def Outline.chars : Outline → List Char
  | .word text => text.toList
  | .list [] => ['(', ')']
  | .list (first :: more) => '(' :: (first.chars ++ behindChars more)

/-- Parts behind another, each after a blank, and the closing parenthesis. -/
def behindChars : List Outline → List Char
  | [] => [')']
  | o :: rest => ' ' :: (o.chars ++ behindChars rest)

end

mutual

/-- Every word in the outline can be told from what stands around it. -/
def Outline.Legible : Outline → Prop
  | .word text => Distinct text.toList
  | .list parts => areLegible parts

def areLegible : List Outline → Prop
  | [] => True
  | o :: rest => o.Legible ∧ areLegible rest

end

theorem areLegible_iff {os : List Outline} : areLegible os ↔ ∀ o ∈ os, o.Legible := by
  induction os with
  | nil => simp [areLegible]
  | cons o os ih => rw [areLegible, ih, List.forall_mem_cons]

/-! ### Words -/

theorem run_append_inj {α : Type} {p : α → Bool} {run run' rest rest' : List α}
    (hrun : ∀ a ∈ run, p a) (hrest : ∀ a ∈ rest.head?, p a = false) (hrun' : ∀ a ∈ run', p a)
    (hrest' : ∀ a ∈ rest'.head?, p a = false) (h : run ++ rest = run' ++ rest') :
    run = run' ∧ rest = rest' := by
  have htake := congrArg (List.takeWhile p) h
  rw [Lexer.takeWhile_run hrun hrest, Lexer.takeWhile_run hrun' hrest'] at htake
  subst htake
  exact ⟨rfl, List.append_cancel_left h⟩

/-- A word does not begin like a list, nor like the end of one. -/
theorem Distinct.exists_cons {cs : List Char} (h : Distinct cs) :
    ∃ c more, cs = c :: more ∧ c ≠ '(' ∧ c ≠ ')' := by
  cases h with
  | bare hne hcs =>
    obtain ⟨c, more, rfl⟩ := List.exists_cons_of_ne_nil hne
    have hc := hcs c List.mem_cons_self
    refine ⟨c, more, rfl, ?_, ?_⟩
    · rintro rfl
      exact absurd hc (by decide)
    · rintro rfl
      exact absurd hc (by decide)
  | quoted => exact ⟨'"', _, rfl, by decide, by decide⟩

theorem isDelimiter_of_ends {rest : List Char} (h : Ends rest) :
    ∀ c ∈ rest.head?, (!isDelimiter c) = false := by
  intro c hc
  rcases h c hc with rfl | rfl <;> decide

/-- A quote begins a quoted word only. -/
theorem quote_append_ne {cs cs' rest rest' : List Char} (hne : cs ≠ [])
    (hcs : ∀ c ∈ cs, isDelimiter c = false) : cs ++ rest ≠ '"' :: cs' ++ rest' := by
  intro h
  obtain ⟨c, cs, rfl⟩ := List.exists_cons_of_ne_nil hne
  obtain ⟨rfl, -⟩ := List.cons.inj h
  exact absurd (hcs '"' List.mem_cons_self) (by decide)

theorem Distinct.append_inj {cs cs' rest rest' : List Char} (h : Distinct cs) (h' : Distinct cs')
    (hrest : Ends rest) (hrest' : Ends rest') (heq : cs ++ rest = cs' ++ rest') :
    cs = cs' ∧ rest = rest' := by
  cases h with
  | bare hne hcs =>
    cases h' with
    | bare _ hcs' =>
      exact run_append_inj (fun c hc => by rw [hcs c hc]; rfl) (isDelimiter_of_ends hrest)
        (fun c hc => by rw [hcs' c hc]; rfl) (isDelimiter_of_ends hrest') heq
    | quoted => exact absurd heq (quote_append_ne hne hcs)
  | @quoted cs hcs =>
    cases h' with
    | bare hne' hcs' => exact absurd heq.symm (quote_append_ne hne' hcs')
    | @quoted cs' hcs' =>
      -- both contents end at the first quote
      have hinner : cs ++ '"' :: rest = cs' ++ '"' :: rest' := by simpa using heq
      have hrun : ∀ {cs : List Char}, '"' ∉ cs → ∀ c ∈ cs, (c != '"') = true := by
        intro cs hcs c hc
        simpa using fun h : c = '"' => hcs (h ▸ hc)
      obtain ⟨rfl, htail⟩ := run_append_inj (hrun hcs) (by simp) (hrun hcs') (by simp) hinner
      exact ⟨rfl, (List.cons.inj htail).2⟩

/-! ### Outlines -/

theorem ends_behindChars (os : List Outline) (rest : List Char) : Ends (behindChars os ++ rest) := by
  intro c hc
  cases os with
  | nil =>
    cases hc
    exact .inr rfl
  | cons o os =>
    cases hc
    exact .inl rfl

theorem word_append_ne_list {text : String} (h : Distinct text.toList) (os : List Outline)
    (rest rest' : List Char) : text.toList ++ rest ≠ (Outline.list os).chars ++ rest' := by
  obtain ⟨c, more, htext, hopen, -⟩ := h.exists_cons
  rw [htext]
  cases os with
  | nil => exact fun heq => hopen (List.cons.inj heq).1
  | cons o os => exact fun heq => hopen (List.cons.inj heq).1

theorem Outline.Legible.exists_cons {o : Outline} (h : o.Legible) :
    ∃ c more, o.chars = c :: more ∧ c ≠ ')' := by
  cases o with
  | word text =>
    obtain ⟨c, more, htext, -, hclose⟩ := Distinct.exists_cons h
    exact ⟨c, more, htext, hclose⟩
  | list os =>
    cases os with
    | nil => exact ⟨'(', _, rfl, by decide⟩
    | cons o os => exact ⟨'(', _, rfl, by decide⟩

/-- A list without parts closes where another has its first part. -/
theorem empty_append_ne_list {o : Outline} (h : o.Legible) (os : List Outline) (rest rest' : List Char) :
    (Outline.list []).chars ++ rest ≠ (Outline.list (o :: os)).chars ++ rest' := by
  obtain ⟨c, more, hchars, hclose⟩ := h.exists_cons
  intro heq
  rw [Outline.chars, Outline.chars, hchars] at heq
  exact hclose (List.cons.inj (List.cons.inj heq).2).1.symm

mutual

theorem Outline.chars_append_inj {rest rest' : List Char} (hrest : Ends rest) (hrest' : Ends rest') :
    (o o' : Outline) → o.Legible → o'.Legible → o.chars ++ rest = o'.chars ++ rest' →
      o = o' ∧ rest = rest'
  | .word text, .word text', h, h', heq => by
    obtain ⟨htext, rfl⟩ := Distinct.append_inj h h' hrest hrest' heq
    exact ⟨by rw [String.toList_inj.1 htext], rfl⟩
  | .word _, .list os, h, _, heq => absurd heq (word_append_ne_list h os rest rest')
  | .list os, .word _, _, h', heq => absurd heq.symm (word_append_ne_list h' os rest' rest)
  | .list [], .list [], _, _, heq => ⟨rfl, by simpa [Outline.chars] using heq⟩
  | .list [], .list (_ :: os), _, h', heq => absurd heq (empty_append_ne_list h'.1 os rest rest')
  | .list (_ :: os), .list [], h, _, heq => absurd heq.symm (empty_append_ne_list h.1 os rest' rest)
  | .list (o :: os), .list (o' :: os'), h, h', heq => by
    have hinner : o.chars ++ (behindChars os ++ rest) = o'.chars ++ (behindChars os' ++ rest') := by
      simpa [Outline.chars] using heq
    obtain ⟨rfl, hbehind⟩ := Outline.chars_append_inj (ends_behindChars os rest)
      (ends_behindChars os' rest') o o' h.1 h'.1 hinner
    obtain ⟨rfl, rfl⟩ := behindChars_append_inj hrest hrest' os os' h.2 h'.2 hbehind
    exact ⟨rfl, rfl⟩

theorem behindChars_append_inj {rest rest' : List Char} (hrest : Ends rest) (hrest' : Ends rest') :
    (os os' : List Outline) → areLegible os → areLegible os' →
      behindChars os ++ rest = behindChars os' ++ rest' → os = os' ∧ rest = rest'
  | [], [], _, _, heq => ⟨rfl, (List.cons.inj heq).2⟩
  | [], _ :: _, _, _, heq => absurd (List.cons.inj heq).1 (by decide)
  | _ :: _, [], _, _, heq => absurd (List.cons.inj heq).1 (by decide)
  | o :: os, o' :: os', h, h', heq => by
    have hinner : o.chars ++ (behindChars os ++ rest) = o'.chars ++ (behindChars os' ++ rest') := by
      simpa [behindChars] using heq
    obtain ⟨rfl, hbehind⟩ := Outline.chars_append_inj (ends_behindChars os rest)
      (ends_behindChars os' rest') o o' h.1 h'.1 hinner
    obtain ⟨rfl, rfl⟩ := behindChars_append_inj hrest hrest' os os' h.2 h'.2 hbehind
    exact ⟨rfl, rfl⟩

end

/-- The text of an outline determines it. -/
theorem Outline.eq_of_chars_eq {o o' : Outline} (h : o.Legible) (h' : o'.Legible)
    (heq : o.chars = o'.chars) : o = o' := by
  have hends : Ends [] := nofun
  exact (Outline.chars_append_inj hends hends o o' h h' (congrArg (· ++ []) heq)).1

end TreeWalk
