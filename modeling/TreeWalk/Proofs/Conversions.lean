import TreeWalk.Proofs.Numerals
import TreeWalk.Proofs.Depth

/-!
# Whole numbers through text

`string` writes a machine word as its digits behind a sign, and `int` drops the blanks around a text and
reads what is left: first as a machine word, and as a floating-point number only if it is none. The
first way takes every text that `string` writes, so no digit is lost (`int_undoes_string`), also where
the floating-point number that the text spells would be another one, or none that fits.
-/

namespace TreeWalk

variable {p q : String}

/-- Nothing but the blanks around it is dropped from a number. -/
theorem trim_intText (hp : ∀ c ∈ p.toList, Text.isBlank c) (hq : ∀ c ∈ q.toList, Text.isBlank c)
    (n : Int) : Text.trim (p ++ intText n ++ q).toList = (intText n).toList := by
  have hnumber : ∀ c ∈ (intText n).toList, Text.isBlank c = false :=
    forall_mem_intText n (by decide) fun _ => Text.isBlank_of_isDigit
  rw [String.toList_append, String.toList_append]
  refine Text.trim_between hp hq (fun c hc => ?_) (fun c hc => ?_)
  · exact hnumber c (List.mem_of_mem_head? hc)
  · exact hnumber c (List.mem_of_mem_getLast? hc)

namespace Builtin

variable {s : String} {n : Int64}

/-- Where a text is a machine word, it is not read as a floating-point number. -/
theorem toInt?_of_readInt64? (h : readInt64? (Text.trim s.toList) = some n) :
    toInt? (.string s) = some n := by
  simp only [toInt?, h]

/-- The floating-point number that the text spells is another one. -/
example : toInt? (.string " 9007199254740993\n") = some 9007199254740993 ∧
    (readFloat? "9007199254740993".toList).bind truncate? = some 9007199254740992 := by
  decide +kernel

theorem int_apply_of_readInt64? (h : readInt64? (Text.trim s.toList) = some n) (heap : Heap)
    (time : Float) (line : Nat) :
    int.apply heap time line [.string s] = (.ok (.int n), heap) := by
  have hvalue : toInt? (argument [.string s]) = some n := toInt?_of_readInt64? h
  simp only [apply, hvalue]

theorem string_apply_int (n : Int64) (heap : Heap) (time : Float) (line : Nat) :
    string.apply heap time line [.int n] = (.ok (.string (intText n.toInt)), heap) := by
  rw [← heap.text_int n]
  rfl

end Builtin

section

variable {b : Builtin} {m : Machine} {arguments : List Value} {v : Value} {heap : Heap} {line : Nat}

theorem State.enterCallee_builtin (h : b.apply m.heap m.time line arguments = (.ok v, heap))
    (stack : List Frame) : enterCallee (.builtin b) arguments line stack m =
      ⟨.value v, stack, { m with heap := heap }⟩ := by
  simp only [enterCallee, h, settle]

/-- A call of a builtin function gives what the function gives, and changes the heap alone. -/
theorem Machine.call_builtin (haccepts : b.arity.accepts arguments.length)
    (hdepth : m.depth < maxDepth) (h : b.apply m.heap m.time line arguments = (.ok v, heap))
    (limit : Nat) :
    m.call (limit + 3) (.builtin b) arguments line = some (.ok v, { m with heap := heap }) := by
  have hentered : State.invoke (.builtin b) arguments line [] m =
      ⟨.value v, [.leave], { m.enterCall b.name with heap := heap }⟩ := by
    rw [State.invoke_entered rfl haccepts hdepth]
    exact State.enterCallee_builtin (m := m.enterCall b.name) h [.leave]
  have hrun : State.run (limit + 3) ⟨.invoke (.builtin b) arguments line, [], m⟩ =
      some (.value v, { m with heap := heap }) := by
    show State.run (limit + 2) (State.invoke (.builtin b) arguments line [] m) = _
    rw [hentered]
    -- the `leave` frame takes off what entering the call put on
    rfl
  rw [call, hrun]

end

/-- `int` undoes `string` on every machine word, whatever blanks stand around the text: both give what
they give in every heap, and calls of them leave the machine as it was. The text is read as a machine
word, so no floating-point number is involved. -/
theorem int_undoes_string (hp : ∀ c ∈ p.toList, Text.isBlank c) (hq : ∀ c ∈ q.toList, Text.isBlank c)
    (n : Int64) :
    (∀ heap time line, Builtin.string.apply heap time line [.int n] =
      (.ok (.string (intText n.toInt)), heap)) ∧
    (∀ heap time line, Builtin.int.apply heap time line [.string (p ++ intText n.toInt ++ q)] =
      (.ok (.int n), heap)) ∧
    readInt64? (Text.trim (p ++ intText n.toInt ++ q).toList) = some n ∧
    ∀ (m : Machine) (limit line : Nat), m.depth < maxDepth →
      m.call (limit + 3) (.builtin .string) [.int n] line =
        some (.ok (.string (intText n.toInt)), m) ∧
      m.call (limit + 3) (.builtin .int) [.string (p ++ intText n.toInt ++ q)] line =
        some (.ok (.int n), m) := by
  have hread : readInt64? (Text.trim (p ++ intText n.toInt ++ q).toList) = some n := by
    rw [trim_intText hp hq, readInt64?_intText]
  have hstring := Builtin.string_apply_int n
  have hint := Builtin.int_apply_of_readInt64? hread
  refine ⟨hstring, hint, hread, fun m limit line hdepth => ⟨?_, ?_⟩⟩
  · exact m.call_builtin rfl hdepth (hstring m.heap m.time line) limit
  · exact m.call_builtin rfl hdepth (hint m.heap m.time line) limit

/-- The least and the greatest machine word between blanks outside of ASCII. The floating-point number
nearest to the greatest is no machine word any more. -/
theorem int_undoes_string_atBounds :
    ((∀ c ∈ "\t\u00a0".toList, Text.isBlank c) ∧ (∀ c ∈ "\u3000\n".toList, Text.isBlank c) ∧
      (Machine.initial 0).depth < maxDepth) ∧
    Builtin.string.apply Heap.empty 0 1 [.int Int64.minValue] =
      (.ok (.string "-9223372036854775808"), Heap.empty) ∧
    Builtin.int.apply Heap.empty 0 1 [.string "\t\u00a0-9223372036854775808\u3000\n"] =
      (.ok (.int Int64.minValue), Heap.empty) ∧
    (Machine.initial 0).call 3 (.builtin .int)
        [.string "\t\u00a09223372036854775807\u3000\n"] 1 =
      some (.ok (.int Int64.maxValue), Machine.initial 0) ∧
    (readFloat? "9223372036854775807".toList).bind Builtin.truncate? = none := by
  have hp : ∀ c ∈ "\t\u00a0".toList, Text.isBlank c :=
    List.all_eq_true.1 (by decide +kernel)
  have hq : ∀ c ∈ "\u3000\n".toList, Text.isBlank c :=
    List.all_eq_true.1 (by decide +kernel)
  have hdepth : (Machine.initial 0).depth < maxDepth := by decide
  have hleast : intText Int64.minValue.toInt = "-9223372036854775808" := by decide +kernel
  have hgreatest : intText Int64.maxValue.toInt = "9223372036854775807" := by decide +kernel
  obtain ⟨hstring, hint, -, -⟩ := int_undoes_string hp hq Int64.minValue
  obtain ⟨-, -, -, hcalls⟩ := int_undoes_string hp hq Int64.maxValue
  obtain ⟨-, hcall⟩ := hcalls (Machine.initial 0) 0 1 hdepth
  rw [hleast] at hstring hint
  rw [hgreatest] at hcall
  exact ⟨⟨hp, hq, hdepth⟩, hstring Heap.empty 0 1, hint Heap.empty 0 1, hcall, by decide +kernel⟩

end TreeWalk
