/-
  Texts of one line.

  * `OneLine`: the text holds no line feed;
  * `oneLine_quoted`: **a quoted text is on one line**, whatever it quotes;
  * `lineFeed_not_mem_decimal` and `lineFeed_not_mem_repr`: so is a number.
-/
import BoxScript.Text.Quoted

namespace BoxScript.Text

/-- The text holds no line feed. -/
def OneLine (s : String) : Prop := '\n' ∉ s.toList

instance (s : String) : Decidable (OneLine s) :=
  inferInstanceAs (Decidable (¬ ('\n' ∈ s.toList)))

/-! ## Numbers -/

theorem lineFeed_not_mem_toDigits {b : Nat} (hb : 1 < b) (n : Nat) : '\n' ∉ Nat.toDigits b n := by
  induction n using Nat.strongRecOn with
  | ind n ih =>
    rw [Nat.toDigits_eq_if hb]
    split
    · simp
    · simpa using ih (n / b) (Nat.div_lt_self (by omega) hb)

@[simp] theorem lineFeed_not_mem_decimal (n : Nat) : '\n' ∉ Nat.toDigits 10 n :=
  lineFeed_not_mem_toDigits (by decide) n

@[simp] theorem lineFeed_not_mem_repr (n : Int) : '\n' ∉ n.repr.toList := by
  cases n <;> simp [Int.repr]

/-! ## Quoted texts -/

theorem lineFeed_not_mem_hexDigits (width n : Nat) : '\n' ∉ hexDigits width n := by
  have hdigits := lineFeed_not_mem_toDigits (by decide : 1 < 16) n
  simpa [hexDigits] using hdigits

theorem lineFeed_not_mem_numericEscape (c : Char) : '\n' ∉ numericEscape c := by
  simp only [numericEscape]
  split
  · simpa using lineFeed_not_mem_hexDigits 2 _
  · split
    · simpa using lineFeed_not_mem_hexDigits 4 _
    · simpa using lineFeed_not_mem_hexDigits 8 _

theorem lineFeed_not_mem_quotedChar {quote : Char} (hq : quote ≠ '\n') (c : Char) :
    '\n' ∉ quotedChar quote c := by
  unfold quotedChar
  split
  · next hc =>
    have hne : c ≠ '\n' := by
      rcases hc with rfl | rfl
      · exact hq
      · decide
    simpa using hne.symm
  · split
    · decide
    · next hne =>
      split
      · decide
      · split
        · decide
        · split
          · simpa using Ne.symm hne
          · exact lineFeed_not_mem_numericEscape c

theorem quoteFor_ne_lineFeed (cs : List Char) : quoteFor cs ≠ '\n' := by
  unfold quoteFor
  split <;> decide

/-- **A quoted text is on one line.** -/
theorem oneLine_quoted (s : String) : OneLine (quoted s) := by
  have hq := quoteFor_ne_lineFeed s.toList
  unfold OneLine quoted
  intro hmem
  simp only [String.toList_ofList, List.cons_append, List.mem_cons, List.mem_append,
    List.mem_flatMap, List.not_mem_nil, or_false] at hmem
  rcases hmem with h | ⟨c, -, h⟩ | h
  · exact hq h.symm
  · exact lineFeed_not_mem_quotedChar hq c h
  · exact hq h.symm

end BoxScript.Text
