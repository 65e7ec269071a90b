import Lumen.Proofs.Grammar.Progress
import Lumen.Proofs.Grammar.Printing
import Lumen.Proofs.Token.Tiling
import Mathlib.Data.List.TakeDrop

namespace Lumen

open List

namespace Grammar

open Token (Numeral)

variable {cs more fraction suffix : List Char}

-- The letter behind a number is not part of what is read, and nothing else is left out.
theorem floatDigits_numeral (h : Numeral cs fraction suffix []) :
    floatDigits (String.ofList (cs ++ fraction ++ suffix)) = cs ++ fraction := by
  have last {ds : List Char} (h : ds ≠ [] ∧ ∀ d ∈ ds, d.isDigit) :
      ∃ front d, ds = front ++ [d] ∧ d.isDigit :=
    ⟨_, _, (dropLast_append_getLast h.1).symm, h.2 _ (getLast_mem h.1)⟩
  have hlast : ∃ front d, cs ++ fraction = front ++ [d] ∧ d.isDigit := by
    rcases h.fraction with rfl | ⟨ds, rfl, hds⟩
    · simpa using last h.whole
    · obtain ⟨front, d, rfl, hd⟩ := last hds
      exact ⟨cs ++ '.' :: front, d, by simp, hd⟩
  obtain ⟨front, d, heq, hd⟩ := hlast
  have hletter : d ≠ 'f' ∧ d ≠ 'F' := by
    constructor <;> rintro rfl <;> contradiction
  rw [heq]
  rcases h.suffix with rfl | ⟨rfl | rfl, -⟩ <;> simp [floatDigits, hletter]

theorem span_digits (h : ∀ d ∈ cs, d.isDigit) (hmore : ∀ d ∈ more.head?, ¬d.isDigit) :
    (cs ++ more).span Char.isDigit = (cs, more) := by
  rw [span_eq_takeWhile_dropWhile, takeWhile_append_of_pos h, dropWhile_append_of_pos h]
  cases more <;> simp_all

theorem read?_numeral (h : Numeral cs fraction suffix []) :
    ∃ x, Double.read? (cs ++ fraction) = some x := by
  have hfraction : (∀ d ∈ fraction.head?, ¬d.isDigit) ∧
      ∃ ds, Double.splitFraction fraction = (ds, []) := by
    rcases h.fraction with rfl | ⟨ds, rfl, -, hds⟩
    · exact ⟨by simp, [], rfl⟩
    · have hspan : (ds ++ []).span Char.isDigit = (ds, []) := span_digits hds (by simp)
      rw [append_nil] at hspan
      exact ⟨by simp, ds, hspan⟩
  obtain ⟨hhead, ds, hds⟩ := hfraction
  simp only [Double.read?, splitSign_digits h.whole fraction, Double.readUnsigned?,
    span_digits h.whole.2 hhead, hds]
  simp [h.whole.1, Double.readExponent?]

variable {t : Token} (h : t.Regular)

include h

-- How a number is read.
theorem literal?_integer (ht : t.kind = .integer) :
    let value := Nat.ofDigitChars 10 t.text.toList 0
    literal? t = some (if value < Nat.pow 2 63 then .ok (.int value)
      else .error (.integerOutOfRange t.text)) := by
  simp only [literal?, ht, readInt64?_digits (h.integer ht).whole]
  split <;> split <;> simp_all

theorem literal?_float (ht : t.kind = .float) : ∃ x, literal? t = some (.ok (.float x)) := by
  obtain ⟨cs, fraction, suffix, htext, hn, -⟩ := h.float ht
  obtain ⟨x, hx⟩ := read?_numeral hn
  have hdigits : floatDigits t.text = cs ++ fraction := by
    rw [← floatDigits_numeral hn, ← htext, String.ofList_toList]
  exact ⟨x, by simp [literal?, ht, hdigits, hx]⟩

-- No number fails but an integer that is out of range.
theorem literal?_error (he : literal? t = some (.error cause)) :
    t.kind = .integer ∧ cause = .integerOutOfRange t.text ∧
      Nat.pow 2 63 ≤ Nat.ofDigitChars 10 t.text.toList 0 := by
  have hkind : t.kind = .integer ∨ t.kind = .float := by
    unfold literal? at he
    split at he <;> simp_all
  rcases hkind with hk | hk
  · rw [literal?_integer h hk] at he
    split at he <;> cases he
    exact ⟨hk, rfl, Nat.le_of_not_lt ‹_›⟩
  · obtain ⟨x, hx⟩ := literal?_float h hk
    cases hx.symm.trans he

omit h

def TellsNumber (text : List Char) : Prop :=
  "Malformed float literal".toList <+: text ∨ "Integer literal ".toList <+: text

theorem Cause.message_numeric {cause : Cause} (hc : cause.isNumeric = false) (more : List Char) :
    ¬TellsNumber (cause.message.toList ++ more) := by
  have other (first later : String) (hfirst : ∀ more, ¬TellsNumber (first.toList ++ more)) :
      ¬TellsNumber ((first ++ later).toList ++ more) := by
    rw [String.toList_append, append_assoc]
    exact hfirst _
  cases cause
  case integerOutOfRange => cases hc
  case malformedFloat => cases hc
  case notCallable =>
    exact other "Only " "named routines and methods can be called" (by simp [TellsNumber])
  case misplacedClass =>
    exact other "Class " "definitions are only allowed at top level" (by simp [TellsNumber])
  all_goals exact other _ _ (by simp [TellsNumber])

theorem LexicalProblem.message_numeric (p : LexicalProblem) (more : List Char) :
    ¬TellsNumber (p.message.toList ++ more) := by
  unfold LexicalProblem.message
  split <;> simp [TellsNumber]

theorem Cursor.ahead_ofTokens (h : ∀ t ∈ front, t.kind ≠ .endMarker) :
    (Cursor.ofTokens (front ++ [.ending loc])).ahead = front ++ [.ending loc] := by
  have hall : ∀ t ∈ front, (!decide (t.kind = .endMarker)) = true := by simpa using h
  simp [Cursor.ofTokens, Cursor.ahead, takeWhile_append_of_pos hall, dropWhile_append_of_pos hall,
    Token.ending]

end Grammar

open Grammar
open Token (Numeral)

namespace Parsed

-- Reports that begin with these words are about integers that are out of range.
theorem ofSource_tellsNumber (h : d ∈ (ofSource source).diagnostics)
    (ht : TellsNumber d.message.toList) :
    ∃ t ∈ (Lexed.ofSource source).tokens.toList, t.kind = .integer ∧ t.loc = d.loc ∧
      Nat.pow 2 63 ≤ Nat.ofDigitChars 10 t.text.toList 0 ∧
      (Cause.integerOutOfRange t.text).message.toList <+: d.message.toList := by
  obtain ⟨front, loc, htokens, hfront⟩ := Lexed.ofSource_regular source
  rcases mem_append.mp h with h | h
  · obtain ⟨p, -, rfl⟩ := mem_map.mp h
    obtain ⟨more, hmore⟩ := toList_hinted p.message p.hint?
    exact absurd (hmore ▸ ht) (LexicalProblem.message_numeric p more)
  · have hreported := ofTokens_reported _ d h
    rw [htokens, Cursor.ahead_ofTokens fun t ht => (hfront t ht).noEnd, ← htokens] at hreported
    obtain ⟨t, hmem, e, hint, hat, rfl⟩ := hreported
    obtain ⟨more, hmore⟩ := toList_hinted e.cause.message hint
    have he : literal? t = some (.error e.cause) := by
      refine hat.numeric ?_
      by_contra hn
      exact Cause.message_numeric (by simpa using hn) more (hmore ▸ ht)
    obtain ⟨hk, hcause, hvalue⟩ := literal?_error
      (Lexed.regular_of_mem hmem fun hk => by simp [literal?, hk] at he) he
    exact ⟨t, hmem, hk, hat.loc, hvalue, more, hcause ▸ hmore.symm⟩

theorem ofSource_literals (h : (ofSource source).diagnostics = []) :
    ((Lexed.ofSource source).tokens.toList.filterMap literal?).Perm
      ((literalsIn (ofSource source).items).map .ok) := by
  obtain ⟨front, loc, htokens, hfront⟩ := Lexed.ofSource_regular source
  obtain ⟨used, hr, -, hitems, -⟩ :=
    items_reads (.ofTokens (Lexed.ofSource source).tokens.toList) (State.worded_all _)
  have hused : used = front := by
    have hrest := hr.rest
    rw [items_exhaust, append_nil, State.rest_ofTokens, htokens] at hrest
    rw [← hrest, takeWhile_append_of_pos fun t ht => by simpa using (hfront t ht).noEnd]
    simp [Token.ending]
  have hend : [Token.ending loc].filterMap literal? = [] := rfl
  rw [htokens, filterMap_append, hend, append_nil, ← hused]
  exact (hitems (reverse_eq_nil_iff.mp (append_eq_nil_iff.mp h).2)).carries.2

-- The tokens of numbers have the form of numbers and are read as such, but for integers that are
-- out of range. No other number is reported. The literals of a text without a report are those of
-- its tokens, so each number in it was read, with its value.
theorem ofSource_numbers (source : String) :
    let tokens : List Token := (Lexed.ofSource source).tokens.toList
    let parsed := ofSource source
    let value (t : Token) := Nat.ofDigitChars 10 t.text.toList 0
    (∀ t ∈ tokens, t.kind = .integer → Numeral t.text.toList [] [] [] ∧
      literal? t = some (if value t < Nat.pow 2 63 then .ok (.int (value t))
        else .error (.integerOutOfRange t.text))) ∧
    (∀ t ∈ tokens, t.kind = .float →
      (∃ whole fraction suffix, t.text.toList = whole ++ fraction ++ suffix ∧
        Numeral whole fraction suffix [] ∧ fraction ++ suffix ≠ []) ∧
      ∃ x, literal? t = some (.ok (.float x))) ∧
    (∀ d ∈ parsed.diagnostics, ¬"Malformed float literal".toList <+: d.message.toList ∧
      ("Integer literal ".toList <+: d.message.toList → ∃ t ∈ tokens, t.kind = .integer ∧
        t.loc = d.loc ∧ Nat.pow 2 63 ≤ value t ∧
        (Cause.integerOutOfRange t.text).message.toList <+: d.message.toList)) ∧
    (parsed.diagnostics = [] →
      (tokens.filterMap literal?).Perm ((literalsIn parsed.items).map .ok)) := by
  refine ⟨fun t ht hk => ?_, fun t ht hk => ?_, fun d hd => ⟨fun hm => ?_, fun hi => ?_⟩,
    ofSource_literals⟩
  · have hregular := Lexed.regular_of_mem ht (by simp [hk])
    exact ⟨hregular.integer hk, literal?_integer hregular hk⟩
  · have hregular := Lexed.regular_of_mem ht (by simp [hk])
    exact ⟨hregular.float hk, literal?_float hregular hk⟩
  · obtain ⟨t, -, -, -, -, more, hmore⟩ := ofSource_tellsNumber hd (.inl hm)
    obtain ⟨more', hmore'⟩ := hm
    have hmessage : (Cause.integerOutOfRange t.text).message =
        "Integer literal " ++ t.text ++ " is out of range" := rfl
    rw [hmessage, ← hmore'] at hmore
    simp at hmore
  · exact ofSource_tellsNumber hd (.inr hi)

-- The second argument of a call is out of range, but what is reported is that it stands there.
theorem ofSource_numbers_argument :
    let source := "f(1, 99999999999999999999);"
    (∃ t ∈ (Lexed.ofSource source).tokens.toList, t.kind = .integer ∧
      Nat.pow 2 63 ≤ Nat.ofDigitChars 10 t.text.toList 0) ∧
    (ofSource source).diagnostics.map (·.message) =
      ["Expected ')' after arguments, found ','"] := by
  decide +kernel

end Parsed
end Lumen
