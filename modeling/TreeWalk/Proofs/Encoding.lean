import TreeWalk.Text.Utf8

/-!
# Reading bytes as text

`Utf8.text?` reads exactly what `Utf8.encode` writes: bytes are the text `s` if and only if they are
the encoding of `s` (`text?_eq_some_iff`). The encoding of a text is the encodings of its characters
one after the other, each of one to four bytes; the decoder takes them off in the same way. A byte
below `0x80` is never a part of a longer character, so it cuts a text into two (`split_encode`).
-/

namespace TreeWalk.Utf8

/-! ### The bytes of a text -/

theorem toList_loop (bytes : ByteArray) (i : Nat) (done : List UInt8) :
    ByteArray.toList.loop bytes i done = done.reverse ++ bytes.data.toList.drop i := by
  fun_induction ByteArray.toList.loop bytes i done with
  | case1 i done h ih =>
    have hlen : i < bytes.data.toList.length := by simpa using h
    have hget : bytes.get! i = bytes.data.toList[i] := by
      show bytes.data[i]! = _
      rw [getElem!_pos bytes.data i (by simpa using h)]
      simp
    rw [ih, List.drop_eq_getElem_cons hlen, hget]
    simp
  | case2 i done h =>
    have hlen : bytes.data.toList.length ≤ i := by simpa using Nat.le_of_not_lt h
    rw [List.drop_eq_nil_of_le hlen]
    simp

theorem encode_eq (s : String) : encode s = s.toList.flatMap String.utf8EncodeChar := by
  have hbytes : s.toUTF8 = s.toList.utf8Encode := String.utf8Encode_toList.symm
  rw [encode, hbytes, ByteArray.toList, toList_loop, List.utf8Encode,
    List.toList_data_toByteArray]
  rfl

theorem encode_append (s t : String) : encode (s ++ t) = encode s ++ encode t := by
  simp [encode_eq]

theorem encode_ofList (cs : List Char) :
    encode (String.ofList cs) = cs.flatMap String.utf8EncodeChar := by
  rw [encode_eq, String.toList_ofList]

/-! ### One character -/

theorem toNat_ofNat {n : Nat} (h : n.isValidChar) : (Char.ofNat n).toNat = n := by
  rw [Char.ofNat, dif_pos h]
  rfl

theorem ofNat_eq {n : Nat} {a : UInt8} (h : n = a.toNat) : UInt8.ofNat n = a := by
  rw [h, UInt8.ofNat_toNat]

theorem isContinuation_iff {b : UInt8} : isContinuation b ↔ 0x80 ≤ b.toNat ∧ b.toNat ≤ 0xBF := by
  simp [isContinuation, UInt8.le_iff_toNat_le]

/-- A second byte is a continuation byte that keeps to the bound its first byte sets. -/
theorem isSecond_iff {first least last most a b : UInt8} (hleast : 0x80 ≤ least)
    (hmost : most ≤ 0xBF) (hne : first ≠ last) : isSecond first least last most a b ↔
      (0x80 ≤ b.toNat ∧ b.toNat ≤ 0xBF) ∧ (a.toNat = first.toNat → least.toNat ≤ b.toNat) ∧
        (a.toNat = last.toNat → b.toNat ≤ most.toNat) := by
  rw [← isContinuation_iff]
  simp only [isSecond, isContinuation, UInt8.toNat_inj, ← UInt8.le_iff_toNat_le]
  split
  · next h =>
    simp only [Bool.and_eq_true, decide_eq_true_eq]
    grind
  · split
    · next h h' =>
      simp only [Bool.and_eq_true, decide_eq_true_eq]
      grind
    · next h h' => simp [h, h']

section

variable {a b c d : UInt8}

theorem encodeChar_one (ha : a.toNat < 0x80) :
    String.utf8EncodeChar (Char.ofNat a.toNat) = [a] := by
  have hn : (Char.ofNat a.toNat).val.toNat = a.toNat := toNat_ofNat (.inl (by omega))
  simp only [String.utf8EncodeChar, hn]
  rw [if_pos (by omega), UInt8.ofNat_toNat]

theorem encodeChar_two (ha : 0xC2 ≤ a.toNat) (ha' : a.toNat < 0xE0) (hb : isContinuation b) :
    String.utf8EncodeChar (Char.ofNat (a.toNat % 0x20 * 0x40 + low b)) = [a, b] := by
  rw [isContinuation_iff] at hb
  have hlow : low b = b.toNat - 0x80 := by unfold low; omega
  have hn : (Char.ofNat (a.toNat % 0x20 * 0x40 + low b)).val.toNat =
      a.toNat % 0x20 * 0x40 + low b := toNat_ofNat (.inl (by omega))
  simp only [String.utf8EncodeChar, hn]
  rw [if_neg (by omega), if_pos (by omega), ofNat_eq (a := a) (by omega),
    ofNat_eq (a := b) (by omega)]

theorem encodeChar_three (ha : 0xE0 ≤ a.toNat) (ha' : a.toNat < 0xF0) (hb : isSecondOfThree a b)
    (hc : isContinuation c) :
    String.utf8EncodeChar (Char.ofNat (a.toNat % 0x10 * 0x1000 + low b * 0x40 + low c)) =
      [a, b, c] := by
  obtain ⟨hb, (hfirst : a.toNat = 0xE0 → 0xA0 ≤ b.toNat),
    (hlast : a.toNat = 0xED → b.toNat ≤ 0x9F)⟩ :=
      (isSecond_iff (by decide) (by decide) (by decide)).1 hb
  rw [isContinuation_iff] at hc
  have hlowb : low b = b.toNat - 0x80 := by unfold low; omega
  have hlowc : low c = c.toNat - 0x80 := by unfold low; omega
  have hvalid : (a.toNat % 0x10 * 0x1000 + low b * 0x40 + low c).isValidChar := by
    unfold Nat.isValidChar; omega
  have hn := toNat_ofNat hvalid
  rw [← Char.toNat_val] at hn
  simp only [String.utf8EncodeChar, hn]
  rw [if_neg (by omega), if_neg (by omega), if_pos (by omega), ofNat_eq (a := a) (by omega),
    ofNat_eq (a := b) (by omega), ofNat_eq (a := c) (by omega)]

theorem encodeChar_four (ha : 0xF0 ≤ a.toNat) (ha' : a.toNat ≤ 0xF4) (hb : isSecondOfFour a b)
    (hc : isContinuation c) (hd : isContinuation d) :
    String.utf8EncodeChar
        (Char.ofNat (a.toNat % 8 * 0x40000 + low b * 0x1000 + low c * 0x40 + low d)) =
      [a, b, c, d] := by
  obtain ⟨hb, (hfirst : a.toNat = 0xF0 → 0x90 ≤ b.toNat),
    (hlast : a.toNat = 0xF4 → b.toNat ≤ 0x8F)⟩ :=
      (isSecond_iff (by decide) (by decide) (by decide)).1 hb
  rw [isContinuation_iff] at hc hd
  have hlowb : low b = b.toNat - 0x80 := by unfold low; omega
  have hlowc : low c = c.toNat - 0x80 := by unfold low; omega
  have hlowd : low d = d.toNat - 0x80 := by unfold low; omega
  have hvalid : (a.toNat % 8 * 0x40000 + low b * 0x1000 + low c * 0x40 + low d).isValidChar := by
    unfold Nat.isValidChar; omega
  have hn := toNat_ofNat hvalid
  rw [← Char.toNat_val] at hn
  simp only [String.utf8EncodeChar, hn]
  rw [if_neg (by omega), if_neg (by omega), if_neg (by omega), ofNat_eq (a := a) (by omega),
    ofNat_eq (a := b) (by omega), ofNat_eq (a := c) (by omega), ofNat_eq (a := d) (by omega)]

end

/-! ### All characters -/

theorem map_cons_ok {c : Char} {outcome : Except Malformed (List Char)} {cs : List Char}
    (h : outcome.map (c :: ·) = .ok cs) : ∃ cs', outcome = .ok cs' ∧ cs = c :: cs' := by
  cases outcome with
  | error e => cases h
  | ok cs' =>
    cases h
    exact ⟨cs', rfl, rfl⟩

/-- What is read is what was written. -/
theorem eq_encode_of_decodeFrom {start : Nat} {bytes : List UInt8} {cs : List Char}
    (h : decodeFrom start bytes = .ok cs) : bytes = cs.flatMap String.utf8EncodeChar := by
  fun_induction decodeFrom start bytes generalizing cs with
  | case1 =>
    cases h
    rfl
  | case2 start a rest ha ih =>
    obtain ⟨cs, hrest, rfl⟩ := map_cons_ok h
    rw [UInt8.lt_iff_toNat_lt] at ha
    rw [List.flatMap_cons, encodeChar_one ha, ← ih hrest]
    rfl
  | case5 start a ha hrange b rest hlt hb ih =>
    obtain ⟨cs, hrest, rfl⟩ := map_cons_ok h
    simp [UInt8.lt_iff_toNat_lt] at hrange hlt
    rw [List.flatMap_cons, encodeChar_two (by omega) (by omega) hb, ← ih hrest]
    rfl
  | case8 start a ha hrange b hge hlt hb c rest hc ih =>
    obtain ⟨cs, hrest, rfl⟩ := map_cons_ok h
    simp [UInt8.lt_iff_toNat_lt] at hge hlt
    rw [List.flatMap_cons, encodeChar_three (by omega) (by omega) hb hc, ← ih hrest]
    rfl
  | case13 start a ha hrange b hge hge' hb c hc d rest hd ih =>
    obtain ⟨cs, hrest, rfl⟩ := map_cons_ok h
    simp [UInt8.lt_iff_toNat_lt] at hrange hge'
    rw [List.flatMap_cons, encodeChar_four (by omega) (by omega) hb hc hd, ← ih hrest]
    rfl
  | _ => cases h

section

variable {a b c d : UInt8} {start : Nat} {rest : List UInt8}

theorem decodeFrom_one (ha : a.toNat < 0x80) :
    decodeFrom start (a :: rest) = (decodeFrom (start + 1) rest).map (Char.ofNat a.toNat :: ·) := by
  have ha : a < 0x80 := by simpa [UInt8.lt_iff_toNat_lt] using ha
  simp only [decodeFrom.eq_def start, ha, if_true]

theorem decodeFrom_two (ha : 0xC2 ≤ a.toNat) (ha' : a.toNat < 0xE0) (hb : isContinuation b) :
    decodeFrom start (a :: b :: rest) = (decodeFrom (start + 2) rest).map
      (Char.ofNat (a.toNat % 0x20 * 0x40 + low b) :: ·) := by
  have h₁ : ¬a < 0x80 := by simp [UInt8.lt_iff_toNat_lt]; omega
  have h₂ : ¬(a < 0xC2 || 0xF4 < a) := by simp [UInt8.lt_iff_toNat_lt]; omega
  have h₃ : a < 0xE0 := by simpa [UInt8.lt_iff_toNat_lt] using ha'
  simp only [decodeFrom.eq_def start, h₁, h₂, h₃, hb, if_true, if_false]
  rfl

theorem decodeFrom_three (ha : 0xE0 ≤ a.toNat) (ha' : a.toNat < 0xF0) (hb : isSecondOfThree a b)
    (hc : isContinuation c) :
    decodeFrom start (a :: b :: c :: rest) = (decodeFrom (start + 3) rest).map
      (Char.ofNat (a.toNat % 0x10 * 0x1000 + low b * 0x40 + low c) :: ·) := by
  have h₁ : ¬a < 0x80 := by simp [UInt8.lt_iff_toNat_lt]; omega
  have h₂ : ¬(a < 0xC2 || 0xF4 < a) := by simp [UInt8.lt_iff_toNat_lt]; omega
  have h₃ : ¬a < 0xE0 := by simp [UInt8.lt_iff_toNat_lt]; omega
  have h₄ : a < 0xF0 := by simpa [UInt8.lt_iff_toNat_lt] using ha'
  simp only [decodeFrom.eq_def start, h₁, h₂, h₃, h₄, hb, hc, if_true, if_false]
  rfl

theorem decodeFrom_four (ha : 0xF0 ≤ a.toNat) (ha' : a.toNat ≤ 0xF4) (hb : isSecondOfFour a b)
    (hc : isContinuation c) (hd : isContinuation d) :
    decodeFrom start (a :: b :: c :: d :: rest) = (decodeFrom (start + 4) rest).map
      (Char.ofNat (a.toNat % 8 * 0x40000 + low b * 0x1000 + low c * 0x40 + low d) :: ·) := by
  have h₁ : ¬a < 0x80 := by simp [UInt8.lt_iff_toNat_lt]; omega
  have h₂ : ¬(a < 0xC2 || 0xF4 < a) := by simp [UInt8.lt_iff_toNat_lt]; omega
  have h₃ : ¬a < 0xE0 := by simp [UInt8.lt_iff_toNat_lt]; omega
  have h₄ : ¬a < 0xF0 := by simp [UInt8.lt_iff_toNat_lt]; omega
  simp only [decodeFrom.eq_def start, h₁, h₂, h₃, h₄, hb, hc, hd, if_true, if_false]
  rfl

end

/-- The decoder takes off one character. -/
theorem decodeFrom_encodeChar (c : Char) (start : Nat) (rest : List UInt8) :
    ∃ start', decodeFrom start (String.utf8EncodeChar c ++ rest) =
      (decodeFrom start' rest).map (c :: ·) := by
  have hvalid : c.toNat < 0xD800 ∨ 0xDFFF < c.toNat ∧ c.toNat < 0x110000 := c.valid
  have hof : Char.ofNat c.toNat = c := Char.ofNat_toNat c
  simp only [String.utf8EncodeChar, Char.toNat_val]
  generalize c.toNat = n at hvalid hof
  subst hof
  have hbyte {k : Nat} (hk : k < 256) : (UInt8.ofNat k).toNat = k := by
    rw [UInt8.toNat_ofNat']
    omega
  have hlow {k : Nat} (hk : k < 0x40) : low (UInt8.ofNat (k + 0x80)) = k := by
    rw [low, hbyte (by omega)]
    omega
  have hcontinues {k : Nat} (hk : k < 0x40) : isContinuation (UInt8.ofNat (k + 0x80)) := by
    rw [isContinuation_iff, hbyte (by omega)]
    omega
  split
  · refine ⟨start + 1, ?_⟩
    simp only [List.cons_append, List.nil_append]
    rw [decodeFrom_one (by rw [hbyte (by omega)]; omega), hbyte (by omega)]
  · split
    · refine ⟨start + 2, ?_⟩
      simp only [List.cons_append, List.nil_append]
      rw [decodeFrom_two (by rw [hbyte (by omega)]; omega) (by rw [hbyte (by omega)]; omega)
        (hcontinues (by omega)), hbyte (by omega), hlow (by omega)]
      have hn : (n / 64 % 0x20 + 0xC0) % 0x20 * 0x40 + n % 0x40 = n := by omega
      rw [hn]
    · split
      · refine ⟨start + 3, ?_⟩
        simp only [List.cons_append, List.nil_append]
        have hsecond : isSecondOfThree (UInt8.ofNat (n / 4096 % 16 + 0xE0))
            (UInt8.ofNat (n / 64 % 0x40 + 0x80)) := by
          rw [isSecondOfThree, isSecond_iff (by decide) (by decide) (by decide),
            hbyte (by omega), hbyte (by omega)]
          simp only [UInt8.reduceToNat]
          omega
        rw [decodeFrom_three (by rw [hbyte (by omega)]; omega) (by rw [hbyte (by omega)]; omega)
          hsecond (hcontinues (by omega)), hbyte (by omega), hlow (by omega), hlow (by omega)]
        have hn : (n / 4096 % 16 + 0xE0) % 0x10 * 0x1000 + n / 64 % 0x40 * 0x40 + n % 0x40 = n := by
          omega
        rw [hn]
      · refine ⟨start + 4, ?_⟩
        simp only [List.cons_append, List.nil_append]
        have hsecond : isSecondOfFour (UInt8.ofNat (n / 262144 % 8 + 0xF0))
            (UInt8.ofNat (n / 4096 % 0x40 + 0x80)) := by
          rw [isSecondOfFour, isSecond_iff (by decide) (by decide) (by decide),
            hbyte (by omega), hbyte (by omega)]
          simp only [UInt8.reduceToNat]
          omega
        rw [decodeFrom_four (by rw [hbyte (by omega)]; omega) (by rw [hbyte (by omega)]; omega)
          hsecond (hcontinues (by omega)) (hcontinues (by omega)), hbyte (by omega),
          hlow (by omega), hlow (by omega), hlow (by omega)]
        have hn : (n / 262144 % 8 + 0xF0) % 8 * 0x40000 + n / 4096 % 0x40 * 0x1000 +
            n / 64 % 0x40 * 0x40 + n % 0x40 = n := by
          omega
        rw [hn]

theorem decodeFrom_encode (cs : List Char) (start : Nat) :
    decodeFrom start (cs.flatMap String.utf8EncodeChar) = .ok cs := by
  induction cs generalizing start with
  | nil => rw [List.flatMap_nil, decodeFrom]
  | cons c cs ih =>
    obtain ⟨start', hc⟩ := decodeFrom_encodeChar c start (cs.flatMap String.utf8EncodeChar)
    rw [List.flatMap_cons, hc, ih]
    rfl

/-- Bytes are a text exactly if they are its encoding. -/
theorem text?_eq_some_iff {bytes : List UInt8} {s : String} :
    text? bytes = some s ↔ bytes = encode s := by
  constructor
  · intro h
    unfold text? at h
    split at h
    · next cs hcs =>
      cases h
      rw [encode_ofList]
      exact eq_encode_of_decodeFrom hcs
    · cases h
  · rintro rfl
    rw [text?, decode, encode_eq, decodeFrom_encode]
    exact congrArg some (String.ofList_toList (s := s))

theorem text?_eq_none_iff {bytes : List UInt8} :
    text? bytes = none ↔ ∀ s, bytes ≠ encode s := by
  rw [Option.eq_none_iff_forall_ne_some]
  exact forall_congr' fun s => not_congr text?_eq_some_iff

theorem encode_injective {s t : String} (h : encode s = encode t) : s = t := by
  have hs : text? (encode s) = some s := text?_eq_some_iff.2 rfl
  have ht : text? (encode s) = some t := text?_eq_some_iff.2 h
  exact Option.some.inj (hs.symm.trans ht)

/-! ### Where a text can be cut -/

/-- A byte below `0x80` is a character by itself. -/
theorem encodeChar_of_mem {c : Char} {b : UInt8} (hmem : b ∈ String.utf8EncodeChar c)
    (hb : b.toNat < 0x80) : String.utf8EncodeChar c = [b] := by
  have hvalid : c.toNat < 0xD800 ∨ 0xDFFF < c.toNat ∧ c.toNat < 0x110000 := c.valid
  simp only [String.utf8EncodeChar, Char.toNat_val] at hmem ⊢
  generalize c.toNat = n at hmem hvalid
  -- the bytes of a longer character are all above
  have habove {k : Nat} (hk : 0x80 ≤ k) (hk' : k < 256) (hbk : b = UInt8.ofNat k) : False := by
    rw [hbk, UInt8.toNat_ofNat'] at hb
    omega
  by_cases h₁ : n ≤ 127
  · rw [if_pos h₁] at hmem ⊢
    rw [List.mem_singleton.1 hmem]
  · rw [if_neg h₁] at hmem
    exfalso
    split at hmem
    · simp only [List.mem_cons, List.not_mem_nil, or_false] at hmem
      rcases hmem with hmem | hmem <;> exact habove (by omega) (by omega) hmem
    · split at hmem
      · simp only [List.mem_cons, List.not_mem_nil, or_false] at hmem
        rcases hmem with hmem | hmem | hmem <;> exact habove (by omega) (by omega) hmem
      · simp only [List.mem_cons, List.not_mem_nil, or_false] at hmem
        rcases hmem with hmem | hmem | hmem | hmem <;> exact habove (by omega) (by omega) hmem

/-- What stands before a byte below `0x80` in a text is a text, and so is what stands behind it. -/
theorem split_encode {s : String} {xs ys : List UInt8} {b : UInt8} (hb : b.toNat < 0x80)
    (h : encode s = xs ++ b :: ys) : (∃ t, xs = encode t) ∧ ∃ t, ys = encode t := by
  rw [encode_eq] at h
  generalize s.toList = cs at h
  induction cs generalizing xs with
  | nil => simp at h
  | cons c cs ih =>
    rw [List.flatMap_cons] at h
    rcases List.append_eq_append_iff.1 h with ⟨more, rfl, hmore⟩ | ⟨more, hc, hmore⟩
    · -- the byte stands behind the first character
      obtain ⟨⟨t, rfl⟩, ht'⟩ := ih hmore
      refine ⟨⟨String.ofList [c] ++ t, ?_⟩, ht'⟩
      rw [encode_append, encode_ofList, List.flatMap_singleton]
    · rcases more with _ | ⟨b', more⟩
      · obtain ⟨⟨t, ht⟩, ht'⟩ := @ih [] hmore.symm
        refine ⟨⟨String.ofList [c], ?_⟩, ht'⟩
        rw [encode_ofList, List.flatMap_singleton, hc, List.append_nil]
      · obtain ⟨rfl, rfl⟩ := List.cons.inj hmore
        have hone := encodeChar_of_mem (c := c) (by rw [hc]; simp) hb
        obtain ⟨rfl, heq⟩ : xs = [] ∧ b :: more = [b] := by
          simpa [List.append_eq_singleton_iff] using hc.symm.trans hone
        obtain rfl : more = [] := (List.cons.inj heq).2
        refine ⟨⟨"", ?_⟩, ⟨String.ofList cs, ?_⟩⟩
        · rw [encode_eq]
          rfl
        · rw [encode_ofList]
          rfl

end TreeWalk.Utf8
