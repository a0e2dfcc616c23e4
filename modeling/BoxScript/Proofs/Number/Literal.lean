/-
  The text of a number reads back as the number.

  * `Denotes cs v`: the characters are read as a decimal of the value `v`;
  * `render_denotes`: a decimal is written so, positionally or with an exponent;
  * `read?_literal`: **every number is read from its text**, also the infinities and NaN.  The
    shortest decimal is near the number, and so is any other decimal of its value.

  No part of Mathlib imports the lemmas on the bits of numbers (`Float.ofBits_toBits`), only the
  whole does.
-/
import Mathlib
import BoxScript.Number.Layout
import BoxScript.Proofs.Number.Shortest
import BoxScript.Proofs.Token.Spelling

namespace BoxScript.Number

variable {c : Char} {cs ds fs rest : List Char} {e : ℤ} {v : ℚ}

/-! ## Values of digits -/

theorem digitsValue_append (ds fs : List Char) :
    digitsValue (ds ++ fs) = digitsValue ds * 10 ^ fs.length + digitsValue fs := by
  have happend := Nat.ofDigitChars_append (b := 10) (l := ds) (m := fs) 0
  rw [Nat.ofDigitChars_eq_ofDigitChars_zero (l := fs), Nat.mul_comm] at happend
  exact happend

theorem digitsValue_replicate (n : ℕ) : digitsValue (List.replicate n '0') = 0 :=
  Nat.ofDigitChars_replicate_zero

theorem digitsValue_zeros_append (n : ℕ) (ds : List Char) :
    digitsValue (List.replicate n '0' ++ ds) = digitsValue ds := by
  rw [digitsValue_append, digitsValue_replicate, Nat.zero_mul, Nat.zero_add]

theorem digitsValue_append_zeros (ds : List Char) (n : ℕ) :
    digitsValue (ds ++ List.replicate n '0') = digitsValue ds * 10 ^ n := by
  rw [digitsValue_append, digitsValue_replicate, List.length_replicate, Nat.add_zero]

theorem isDigit_of_mem_zeros {n : ℕ} (hc : c ∈ List.replicate n '0') : c.isDigit = true := by
  rw [(List.mem_replicate.1 hc).2]
  rfl

theorem digitsValue_toDigits (n : ℕ) : digitsValue (Nat.toDigits 10 n) = n :=
  Nat.ofDigitChars_ten_toDigits

/-! ## Reading -/

/-- A word begins with a letter. -/
theorem readWord?_eq_none (h : c.isDigit = true) (negative : Bool) :
    readWord? negative (c :: rest) = none := by
  have hbounds := toNat_of_isDigit h
  have hlower : c.toLower = c := dif_neg fun hc => by
    have hletter : 65 ≤ c.toNat := hc.1
    omega
  have hne : ∀ word : String, (∃ d ds, word.toList = d :: ds ∧ 57 < d.toNat) →
      String.ofList ((c :: rest).map Char.toLower) ≠ word := by
    rintro word ⟨d, ds, hword, hd⟩ heq
    have := congrArg String.toList heq
    rw [String.toList_ofList, hword, List.map_cons, hlower] at this
    have hc := congrArg Char.toNat (List.cons.inj this).1
    omega
  rw [readWord?]
  simp only [hne "inf" ⟨_, _, rfl, by decide⟩, hne "infinity" ⟨_, _, rfl, by decide⟩,
    hne "nan" ⟨_, _, rfl, by decide⟩, or_self, if_false]

/-- The characters are read as a decimal of this value. -/
structure Denotes (cs : List Char) (v : ℚ) : Prop where
  written : ∀ c ∈ cs, IsWritten c
  begins : ∃ c rest, cs = c :: rest ∧ c.isDigit = true
  reads : ∀ negative, ∃ d : Decimal, d.value = v ∧
    readDecimal? negative cs = some (ofDecimal negative d.digits d.exponent)

/-- What may come after the digits: nothing, or an exponent. -/
structure IsTail (rest : List Char) (e : ℤ) : Prop where
  written : ∀ c ∈ rest, IsWritten c
  stops : ∀ c ∈ rest.head?, c.isDigit = false ∧ c ≠ '.'
  exponent : readExponent? rest = some e

theorem isTail_nil : IsTail [] 0 := ⟨by simp, by simp, rfl⟩

theorem isTail_digits (hd : ∀ c ∈ ds, c.isDigit = true) (hne : ds ≠ [])
    (hv : digitsValue ds = e.natAbs) : IsTail ('e' :: (if e < 0 then '-' else '+') :: ds) e := by
  have hall : (!ds.isEmpty && ds.all Char.isDigit) = true := by
    simpa [hne] using hd
  refine ⟨?_, by simp, ?_⟩
  · intro c hc
    simp only [List.mem_cons] at hc
    rcases hc with rfl | rfl | hc
    · simp [IsWritten]
    · split <;> simp [IsWritten]
    · exact Or.inl (hd c hc)
  · split <;> simp only [readExponent?, readSign, hall, hv, true_or, if_true, Bool.false_eq_true,
      if_false, Option.some.injEq] <;> omega

/-- The zeros before an exponent do not change it. -/
theorem isTail_exponentText (width : ℕ) (e : ℤ) : IsTail (exponentText width e) e := by
  refine isTail_digits (fun c hc => ?_) (by simp [Nat.toDigits_ne_nil]) ?_
  · rcases List.mem_append.1 hc with hc | hc
    · exact isDigit_of_mem_zeros hc
    · exact Nat.isDigit_of_mem_toDigits (by decide) (by decide) hc
  · exact (digitsValue_zeros_append _ _).trans (digitsValue_toDigits _)

theorem IsTail.stops_digits (h : IsTail rest e) : ∀ c ∈ rest.head?, c.isDigit = false :=
  fun c hc => (h.stops c hc).1

theorem denotes_point (hd : ∀ c ∈ ds, c.isDigit = true) (hne : ds ≠ [])
    (hf : ∀ c ∈ fs, c.isDigit = true) (h : IsTail rest e) :
    Denotes (ds ++ '.' :: (fs ++ rest)) (digitsValue (ds ++ fs) * 10 ^ (e - fs.length)) := by
  refine ⟨fun c hc => ?_, ?_, fun negative => ⟨⟨digitsValue (ds ++ fs), _⟩, rfl, ?_⟩⟩
  · simp only [List.mem_append, List.mem_cons] at hc
    rcases hc with hc | rfl | hc | hc
    · exact Or.inl (hd c hc)
    · simp [IsWritten]
    · exact Or.inl (hf c hc)
    · exact h.written c hc
  · obtain ⟨c, ds, rfl⟩ := List.exists_cons_of_ne_nil hne
    exact ⟨c, _, rfl, hd c (by simp)⟩
  · have hstop : ∀ c ∈ ('.' :: (fs ++ rest)).head?, c.isDigit = false := by simp
    obtain ⟨ht, hr⟩ := span_eq hd hstop
    obtain ⟨htf, hrf⟩ := span_eq hf h.stops_digits
    simp [readDecimal?, ht, hr, htf, hrf, hne, h.exponent]

theorem denotes_whole (hd : ∀ c ∈ ds, c.isDigit = true) (hne : ds ≠ []) (h : IsTail rest e) :
    Denotes (ds ++ rest) (digitsValue ds * 10 ^ e) := by
  refine ⟨fun c hc => ?_, ?_, fun negative => ⟨⟨digitsValue ds, e⟩, rfl, ?_⟩⟩
  · rcases List.mem_append.1 hc with hc | hc
    · exact Or.inl (hd c hc)
    · exact h.written c hc
  · obtain ⟨c, ds, rfl⟩ := List.exists_cons_of_ne_nil hne
    exact ⟨c, _, rfl, hd c (by simp)⟩
  · obtain ⟨ht, hr⟩ := span_eq hd h.stops_digits
    rw [readDecimal?, ht, hr]
    split
    next fraction after heq =>
    split at heq
    · exact absurd rfl (h.stops _ rfl).2
    · obtain ⟨rfl, rfl⟩ := Prod.mk.inj heq
      simp [hne, h.exponent]

/-- A sign before the characters is read as that of the number. -/
theorem Denotes.read? (h : Denotes cs v) (negative : Bool) : ∃ d : Decimal, d.value = v ∧
    read? (String.ofList (if negative then '-' :: cs else cs)) =
      some (ofDecimal negative d.digits d.exponent) := by
  obtain ⟨d, hvalue, hread⟩ := h.reads negative
  obtain ⟨c, rest, rfl, hc⟩ := h.begins
  have hsign : readSign (if negative then '-' :: c :: rest else c :: rest) =
      (negative, c :: rest) := by
    cases negative with
    | true => rfl
    | false =>
      refine readSign_eq_self fun d hd => ?_
      obtain rfl := Option.some.inj hd
      constructor <;> rintro rfl <;> cases hc
  refine ⟨d, hvalue, ?_⟩
  rw [read?_written, hsign, readWord?_eq_none hc]
  · exact hread
  · cases negative with
    | false => exact h.written
    | true => simpa [IsWritten] using h.written

/-! ## Writing -/

theorem Denotes.of_eq {cs' : List Char} {v' : ℚ} (h : Denotes cs v) (hcs : cs' = cs)
    (hv : v' = v) : Denotes cs' v' := by
  rw [hcs, hv]
  exact h

theorem ten_ne_zero : (10 : ℚ) ≠ 0 := by norm_num

theorem positional_denotes (hd : ∀ c ∈ ds, c.isDigit = true) (hne : ds ≠ []) (e : ℤ) :
    Denotes (positional ds e) (digitsValue ds * 10 ^ (e + 1 - ds.length)) := by
  unfold positional
  split
  · next he =>
    have hzero : ∀ c ∈ List.replicate 1 '0', c.isDigit = true := fun c => isDigit_of_mem_zeros
    have hf : ∀ c ∈ List.replicate (-e - 1).toNat '0' ++ ds, c.isDigit = true := fun c hc =>
      (List.mem_append.1 hc).elim isDigit_of_mem_zeros (hd c)
    refine (denotes_point hzero (by simp) hf isTail_nil).of_eq (by simp) ?_
    rw [digitsValue_zeros_append, digitsValue_zeros_append]
    congr 2
    simp
    omega
  · next he =>
    have hintegral : ∀ c ∈ ds.take (e.toNat + 1) ++
        List.replicate (e.toNat + 1 - ds.length) '0', c.isDigit = true := fun c hc =>
      (List.mem_append.1 hc).elim (fun hc => hd c (List.mem_of_mem_take hc)) isDigit_of_mem_zeros
    have hne' : ds.take (e.toNat + 1) ++ List.replicate (e.toNat + 1 - ds.length) '0' ≠ [] := by
      simp [hne]
    -- the point stands among the digits, or after them and the zeros that are added
    rcases Nat.lt_or_ge (e.toNat + 1) ds.length with hlt | hle
    · have hfraction : ∀ c ∈ ds.drop (e.toNat + 1), c.isDigit = true := fun c hc =>
        hd c (List.mem_of_mem_drop hc)
      refine (denotes_point hintegral hne' hfraction isTail_nil).of_eq ?_ ?_
      · simp [Nat.not_le.2 hlt]
      · rw [Nat.sub_eq_zero_of_le hlt.le, List.replicate_zero, List.append_nil,
          List.take_append_drop]
        congr 2
        simp
        omega
    · have hfraction : ∀ c ∈ List.replicate 1 '0', c.isDigit = true := fun c =>
        isDigit_of_mem_zeros
      refine (denotes_point hintegral hne' hfraction isTail_nil).of_eq ?_ ?_
      · simp [hle]
      · have hexp : e + 1 - ds.length = (e.toNat + 1 - ds.length : ℕ) := by omega
        rw [List.take_of_length_le hle, digitsValue_append_zeros, digitsValue_append_zeros, hexp,
          zpow_natCast]
        simp

theorem scientific_denotes (hd : ∀ c ∈ ds, c.isDigit = true) (hne : ds ≠ []) (width : ℕ) (e : ℤ) :
    Denotes (scientific width ds e) (digitsValue ds * 10 ^ (e + 1 - ds.length)) := by
  have htail := isTail_exponentText width e
  unfold scientific
  split
  · exact absurd rfl hne
  · exact (denotes_whole hd hne htail).of_eq rfl (by simp)
  · next d rest _ =>
    have hfirst : ∀ c ∈ [d], c.isDigit = true := fun c hc => hd c (by simp_all)
    have hrest : ∀ c ∈ rest, c.isDigit = true := fun c hc => hd c (by simp [hc])
    refine (denotes_point hfirst (by simp) hrest htail).of_eq (by simp) ?_
    rw [List.singleton_append]
    congr 2
    simp

/-- The significant digits are all digits but the zeros at the end. -/
theorem trimmed_zeros (ds : List Char) :
    ∃ n, ds = (ds.reverse.dropWhile (· == '0')).reverse ++ List.replicate n '0' := by
  refine ⟨(ds.reverse.takeWhile (· == '0')).length, ?_⟩
  have hzeros : ds.reverse.takeWhile (· == '0') =
      List.replicate (ds.reverse.takeWhile (· == '0')).length '0' :=
    List.eq_replicate_iff.2 ⟨rfl, fun c hc => by
      simpa using List.all_eq_true.1 List.all_takeWhile c hc⟩
  rw [← List.reverse_replicate, ← hzeros, ← List.reverse_append, List.takeWhile_append_dropWhile,
    List.reverse_reverse]

/-- The significant digits keep the value. -/
theorem significantDigits_spec (d : Decimal) :
    (∀ c ∈ (significantDigits d).1, c.isDigit = true) ∧ (significantDigits d).1 ≠ [] ∧
      (digitsValue (significantDigits d).1 *
        10 ^ ((significantDigits d).2 + 1 - (significantDigits d).1.length) : ℚ) = d.value := by
  obtain ⟨n, hn⟩ := trimmed_zeros (Nat.toDigits 10 d.digits)
  have hall : ∀ c ∈ Nat.toDigits 10 d.digits, c.isDigit = true := fun c hc =>
    Nat.isDigit_of_mem_toDigits (by decide) (by decide) hc
  have hvalue := digitsValue_toDigits d.digits
  unfold significantDigits
  simp only
  generalize ((Nat.toDigits 10 d.digits).reverse.dropWhile (· == '0')).reverse = ds at hn ⊢
  rw [hn] at hall hvalue ⊢
  rw [digitsValue_append_zeros] at hvalue
  split
  · next hds =>
    obtain rfl := List.isEmpty_iff.1 hds
    refine ⟨by simp, by simp, ?_⟩
    have hzero : d.digits = 0 := by rw [← hvalue]; exact Nat.zero_mul _
    simp [Decimal.value, hzero, digitsValue]
  · next hds =>
    refine ⟨fun c hc => hall c (by simp [hc]), by simpa using hds, ?_⟩
    rw [Decimal.value, ← hvalue, List.length_append, List.length_replicate]
    push_cast
    rw [mul_assoc, ← zpow_natCast, ← zpow_add₀ ten_ne_zero]
    congr 2
    omega

theorem render_denotes (l : Layout) (d : Decimal) : Denotes (l.render d) d.value := by
  obtain ⟨hd, hne, hvalue⟩ := significantDigits_spec d
  unfold Layout.render
  rw [← hvalue]
  simp only
  split
  · exact positional_denotes hd hne _
  · exact scientific_denotes hd hne _ _

/-! ## Numbers -/

/-- The parts of a finite number are regular, and give it back. -/
theorem ofFloat?_spec {x : Float} {b : Binary} (h : Binary.ofFloat? x = some b) :
    b.Regular ∧ ofSignedBits b.negative b.bits = x := by
  have hlt : x.toBits.toNat < 2 ^ 64 := x.toBits.toNat_lt
  suffices hbits : b.Regular ∧
      (if b.negative then 2 ^ 63 + b.bits else b.bits) = x.toBits.toNat by
    refine ⟨hbits.1, ?_⟩
    simp only [ofSignedBits, Nat.pow_eq]
    rw [hbits.2, UInt64.ofNat_toNat, Float.ofBits_toBits]
  unfold Binary.ofFloat? at h
  generalize x.toBits.toNat = n at h hlt ⊢
  simp only [Nat.pow_eq, Nat.reducePow, Nat.reduceSub] at h hlt ⊢
  split at h
  · cases h
  · -- a fraction alone at the least exponent, or with the leading bit that is not stored
    split at h <;> cases h
    · refine ⟨⟨?_, le_rfl, by norm_num, fun h => absurd h (lt_irrefl _)⟩, ?_⟩
      · simp only [Nat.reducePow]
        omega
      · simp only [Binary.bits, beq_iff_eq, Int.reduceAdd, Int.toNat_zero, Nat.zero_mul]
        split <;> omega
    · refine ⟨⟨?_, ?_, ?_, fun _ => Nat.le_add_right _ _⟩, ?_⟩ <;>
        simp only [Binary.bits, beq_iff_eq, Nat.reducePow]
      · omega
      · omega
      · omega
      · split <;> omega

/-- A decimal of the value of the shortest one is read as the number. -/
theorem ofDecimal_of_shortest {b : Binary} {d : Decimal} (hb : b.Regular)
    (h : d.value = (shortest b).value) :
    ofDecimal b.negative d.digits d.exponent = ofSignedBits b.negative b.bits := by
  by_cases hm : b.mantissa = 0
  · have hexp : b.exponent = -1074 := by
      have := hb.normal
      have := hb.exponent_ge
      omega
    have hbits : b.bits = 0 := by simp [Binary.bits, hm, hexp]
    have hdigits : d.digits = 0 := by
      simpa [shortest, hm, Decimal.value, zpow_ne_zero] using h
    rw [hbits, ofDecimal, if_pos (Or.inl hdigits)]
  · exact ofDecimal_of_near hb hm (h ▸ shortest_near hb hm) b.negative

/-- What is not finite is the NaN or an infinity. -/
theorem ofFloat?_eq_none {x : Float} (h : Binary.ofFloat? x = none) :
    x = Float.ofBits 0x7ff8000000000000 ∨ x = Float.ofBits 0x7ff0000000000000 ∨
      x = Float.ofBits 0xfff0000000000000 := by
  have hlt : x.toBits.toNat < 2 ^ 64 := x.toBits.toNat_lt
  have hbits : ∀ bits : UInt64, x.toBits.toNat = bits.toNat → x = Float.ofBits bits := by
    intro bits h
    rw [← UInt64.toNat_inj.1 h, Float.ofBits_toBits]
  have hexp : x.toBits.toNat / 2 ^ 52 % 2 ^ 11 = 2 ^ 11 - 1 := by
    unfold Binary.ofFloat? at h
    simp only [Nat.pow_eq] at h
    by_contra hne
    rw [if_neg hne] at h
    split at h <;> cases h
  by_cases hfrac : x.toBits.toNat % 2 ^ 52 = 0
  · right
    simp only [Nat.reducePow, Nat.reduceSub] at hlt hexp hfrac
    rcases Nat.lt_or_ge x.toBits.toNat 0x8000000000000000 with h | h
    · left
      exact hbits _ (by simp only [UInt64.reduceToNat]; omega)
    · right
      exact hbits _ (by simp only [UInt64.reduceToNat]; omega)
  · -- of the NaNs there is only one, so the bits are known
    left
    have hone : @Float.Model.UnpackedFloat.unpackExponent .binary64 x.toBits.toBitVec = -1#11 := by
      rw [Float.Model.UnpackedFloat.unpackExponent_def]
      refine BitVec.eq_of_toNat_eq ?_
      rw [BitVec.extractLsb'_toNat, Nat.shiftRight_eq_div_pow]
      exact hexp
    have hmantissa :
        @Float.Model.UnpackedFloat.unpackMantissa .binary64 x.toBits.toBitVec ≠ 0#52 := by
      rw [Float.Model.UnpackedFloat.unpackMantissa_def]
      intro hzero
      have hzero := congrArg BitVec.toNat hzero
      rw [BitVec.extractLsb'_toNat, Nat.shiftRight_zero] at hzero
      exact hfrac hzero
    have hnan := x.toModel.valid.eq_packedNaN hone hmantissa
    exact hbits _ (congrArg BitVec.toNat hnan)

/-- **Every number is read from its text.** -/
theorem read?_literal (x : Float) : read? (literal x) = some x := by
  cases h : Binary.ofFloat? x with
  | none => obtain rfl | rfl | rfl := ofFloat?_eq_none h <;> rfl
  | some b =>
    obtain ⟨hb, hx⟩ := ofFloat?_spec h
    obtain ⟨d, hvalue, hread⟩ := (render_denotes layout (shortest b)).read? b.negative
    rw [literal, h]
    simp only
    rw [hread, ofDecimal_of_shortest hb hvalue, hx]

end BoxScript.Number
