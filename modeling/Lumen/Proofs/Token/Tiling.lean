import Lumen.Proofs.Token.Stream

namespace Lumen

open List Option

namespace Location

-- The place behind a text: a line for every line feed, a column for every character behind the
-- last line feed.
def behind (text : List Char) : Location :=
  ⟨1 + text.count '\n', 1 + (text.reverse.takeWhile (· ≠ '\n')).length⟩

theorem behind_concat (text : List Char) (c : Char) :
    behind (text ++ [c]) = (behind text).after c := by
  unfold behind after
  by_cases h : c = '\n'
  · simp [h, Nat.add_assoc]
  · simp [h, Nat.add_assoc]

theorem behind_append (text more : List Char) :
    behind (text ++ more) = (behind text).afterAll more := by
  induction more generalizing text
  case nil => simp
  case cons c more ih =>
    have hc : text ++ c :: more = (text ++ [c]) ++ more := by simp
    rw [hc, ih, behind_concat, afterAll_cons]

theorem behind_lt_append (text : List Char) (h : more ≠ []) : behind text < behind (text ++ more) :=
  behind_append text more ▸ lt_afterAll _ h

theorem behind_le_append (text more : List Char) : behind text ≤ behind (text ++ more) :=
  behind_append text more ▸ le_afterAll _ more

end Location

open Location (behind)

namespace Token

def Kind.isSign (k : Kind) : Bool :=
  k.category = .operator || k.category = .delimiter

-- Digits, maybe with a fraction behind them, maybe with a letter behind that which makes the number
-- a float. That letter is not the start of a word.
structure Numeral (whole fraction suffix rest : List Char) : Prop where
  whole    : whole ≠ [] ∧ ∀ d ∈ whole, d.isDigit
  fraction : fraction = [] ∨ ∃ digits, fraction = '.' :: digits ∧ digits ≠ [] ∧
    ∀ d ∈ digits, d.isDigit
  suffix   : suffix = [] ∨ (suffix = ['f'] ∨ suffix = ['F']) ∧ ∀ d ∈ rest.head?, ¬continuesWord d

inductive Writes : Kind → List Char → List Char → Prop
  | word {c cs rest} : startsWord c → (∀ d ∈ cs, continuesWord d) →
    Writes ((Kind.ofWord? (String.ofList (c :: cs))).getD .identifier) (c :: cs) rest
  | integer {whole rest} : Numeral whole [] [] rest → Writes .integer whole rest
  | float {whole fraction suffix rest} : Numeral whole fraction suffix rest →
    fraction ++ suffix ≠ [] → Writes .float (whole ++ fraction ++ suffix) rest
  | sign {kind spelling rest} : kind.isSign → kind.spelling? = some spelling →
    Writes kind spelling.toList rest

-- The form is the longest one that the text begins with, and the text begins with no comment.
structure Lexeme (kind : Kind) (text rest : List Char) : Prop where
  writes    : Writes kind text rest
  longest   : ∀ kind' text' rest', text' ++ rest' = text ++ rest → Writes kind' text' rest' →
    text'.length ≤ text.length
  noComment : ∀ c ∈ ['/', '*'], ¬['/', c] <+: text ++ rest

structure Rejected (c : Char) (rest : List Char) : Prop where
  blank  : ¬isBlank c
  quote  : c ≠ '"'
  writes : ∀ kind text after, text ++ after = c :: rest → ¬Writes kind text after

-- What the inside of a string spells, and the unknown escapes in it, each at its backslash.
-- `before` is the text in front of the inside.
inductive Spells : List Char → List Char → List Char → List LexicalProblem → Prop
  | nil {before} : Spells before [] [] []
  | plain {before c inside content escapes} : c ≠ '"' → c ≠ '\n' → c ≠ '\\' →
    Spells (before ++ [c]) inside content escapes →
    Spells before (c :: inside) (c :: content) escapes
  | known {before c e inside content escapes} : escape? c = some e →
    Spells (before ++ ['\\', c]) inside content escapes →
    Spells before ('\\' :: c :: inside) (e :: content) escapes
  | unknown {before c inside content escapes} : escape? c = none →
    Spells (before ++ ['\\', c]) inside content escapes →
    Spells before ('\\' :: c :: inside) content (⟨.unknownEscape c, behind before⟩ :: escapes)

-- A string that is not closed ends in front of a line feed or at the end of the text; there, a
-- backslash may be left that no character follows.
inductive Unclosed : List Char → List Char → Prop
  | atEnd : Unclosed [] []
  | atLine {rest} : Unclosed [] ('\n' :: rest)
  | atBackslash : Unclosed ['\\'] []

-- A text that stands behind `before`, with its tokens and problems. Every rule takes the next part
-- off the text; its place is the one behind all characters before it.
inductive Tiling : List Char → List Char → List Token → List LexicalProblem → Prop
  | done {before} : Tiling before [] [.ending (behind before)] []
  | blank {before c rest ts ps} : isBlank c → Tiling (before ++ [c]) rest ts ps →
    Tiling before (c :: rest) ts ps
  | lineComment {before body rest ts ps} : '\n' ∉ body → (∀ c ∈ rest.head?, c = '\n') →
    Tiling (before ++ '/' :: '/' :: body) rest ts ps →
    Tiling before ('/' :: '/' :: (body ++ rest)) ts ps
  | blockComment {before body rest ts ps} : ¬['*', '/'] <:+: body →
    Tiling (before ++ '/' :: '*' :: (body ++ ['*', '/'])) rest ts ps →
    Tiling before ('/' :: '*' :: (body ++ '*' :: '/' :: rest)) ts ps
  | openComment {before body ts ps} : ¬['*', '/'] <:+: body →
    Tiling (before ++ '/' :: '*' :: body) [] ts ps →
    Tiling before ('/' :: '*' :: body) ts (⟨.unterminatedComment, behind before⟩ :: ps)
  | lexeme {before kind text rest ts ps} : Lexeme kind text rest →
    Tiling (before ++ text) rest ts ps →
    Tiling before (text ++ rest) (⟨kind, String.ofList text, behind before⟩ :: ts) ps
  | string {before inside content escapes rest ts ps} :
    Spells (before ++ ['"']) inside content escapes →
    Tiling (before ++ '"' :: (inside ++ ['"'])) rest ts ps →
    Tiling before ('"' :: (inside ++ '"' :: rest))
      (⟨.string, String.ofList content, behind before⟩ :: ts) (escapes ++ ps)
  | openString {before inside content escapes lone rest ts ps} :
    Spells (before ++ ['"']) inside content escapes → Unclosed lone rest →
    Tiling (before ++ '"' :: (inside ++ lone)) rest ts ps →
    Tiling before ('"' :: (inside ++ (lone ++ rest)))
      (⟨.string, String.ofList content, behind before⟩ :: ts)
      (escapes ++ ⟨.unterminatedString, behind before⟩ :: ps)
  | rejected {before c rest ts ps} : Rejected c rest → Tiling (before ++ [c]) rest ts ps →
    Tiling before (c :: rest) ts (⟨.unexpectedCharacter c, behind before⟩ :: ps)

def problemsFrom (loc : Location) : List Piece → List LexicalProblem
  | [] => []
  | p :: rest => p.problems loc ++ problemsFrom (loc.afterAll p.text) rest

section Signs

open Piece (signs signTable)

theorem Kind.mem_signs_iff : k ∈ signs ↔ k.isSign := by
  cases k <;> decide

theorem mem_signTable_iff {text : List Char} {kind : Kind} :
    (text, kind) ∈ signTable ↔
      kind.isSign ∧ ∃ spelling, kind.spelling? = some spelling ∧ text = spelling.toList := by
  simp only [signTable, mem_filterMap, map_eq_some_iff, Kind.mem_signs_iff,
    Prod.mk.injEq]
  constructor
  · rintro ⟨k, hk, s, hs, rfl, rfl⟩
    exact ⟨hk, s, hs, rfl⟩
  · rintro ⟨hk, s, hs, rfl⟩
    exact ⟨kind, hk, s, hs, rfl, rfl⟩

theorem length_le_of_find?_signTable {cs text text' : List Char} {kind : Kind}
    (h : signTable.find? (fun entry => entry.1.isPrefixOf cs) = some (text, kind))
    (hm : (text', kind') ∈ signTable) (hp : text' <+: cs) : text'.length ≤ text.length := by
  have sorted : signTable.Pairwise (fun a b => b.1.length ≤ a.1.length) := by decide +kernel
  obtain ⟨_, front, back, ht, hfront⟩ := find?_eq_some_iff_append.mp h
  rw [ht] at hm sorted
  rcases mem_append.mp hm with hm | hm
  · have := hfront _ hm
    rw [List.isPrefixOf_iff_prefix.mpr hp] at this
    contradiction
  · rcases mem_cons.mp hm with hm | hm
    · exact Nat.le_of_eq (congrArg (List.length ∘ Prod.fst) hm)
    · exact (pairwise_cons.mp (pairwise_append.mp sorted).2.1).1 _ hm

theorem sign_head {kind : Kind} {spelling : String} (hk : kind.isSign)
    (hs : kind.spelling? = some spelling) :
    ∃ c cs, spelling.toList = c :: cs ∧ ¬startsWord c ∧ ¬c.isDigit := by
  have all : ∀ entry ∈ signTable, entry.1.head?.any fun c => !startsWord c && !c.isDigit := by
    decide +kernel
  have hm := all _ (mem_signTable_iff.mpr ⟨hk, spelling, hs, rfl⟩)
  cases hc : spelling.toList
  case nil => simp [hc] at hm
  case cons c cs => exact ⟨c, cs, rfl, by simpa [hc] using hm⟩

end Signs

namespace Writes

variable {kind : Kind} {c : Char} {text cs rest : List Char}

theorem ne_nil (h : Writes kind text rest) : text ≠ [] := by
  cases h
  case word => simp
  case integer h => exact h.whole.1
  case float _ h => simp [h.whole.1]
  case sign hk hs =>
    obtain ⟨c, cs, hc, _⟩ := sign_head hk hs
    simp [hc]

theorem cases_head (h : Writes kind (c :: cs) rest) :
    (startsWord c ∧ ∀ d ∈ cs, continuesWord d) ∨
    (c.isDigit ∧ ∃ whole fraction suffix,
      Numeral whole fraction suffix rest ∧ c :: cs = whole ++ fraction ++ suffix) ∨
    (¬startsWord c ∧ ¬c.isDigit ∧ (c :: cs, kind) ∈ Piece.signTable) := by
  generalize ht : c :: cs = text at h
  cases h
  case word hc hcs =>
    cases ht
    exact .inl ⟨hc, hcs⟩
  case integer h =>
    subst ht
    exact .inr (.inl ⟨h.whole.2 c (mem_cons_self ..), _, [], [], h, by simp⟩)
  case float whole fraction suffix _ h =>
    refine .inr (.inl ⟨?_, whole, fraction, suffix, h, rfl⟩)
    cases whole
    case nil => exact absurd rfl h.whole.1
    case cons d ds =>
      cases ht
      exact h.whole.2 c (mem_cons_self ..)
  case sign spelling hk hs =>
    obtain ⟨d, ds, hd, hword, hdigit⟩ := sign_head hk hs
    cases ht.trans hd
    exact .inr (.inr ⟨hword, hdigit, mem_signTable_iff.mpr ⟨hk, spelling, hs, rfl⟩⟩)

end Writes

theorem not_isDigit_of_startsWord (h : startsWord c) : ¬c.isDigit := by
  delta startsWord Char.isAlpha Char.isUpper Char.isLower at h
  delta Char.isDigit
  simp only [Bool.or_eq_true, Bool.and_eq_true, decide_eq_true_eq, UInt32.le_iff_toNat_le] at *
  rcases h with h | rfl
  · grind
  · decide

namespace Piece

open Char (isDigit)

variable {c : Char} {cs : List Char}

theorem splitFraction_head (hf : (splitFraction cs).1 ≠ []) :
    ∃ digits, (splitFraction cs).1 = '.' :: digits ∧ digits ≠ [] ∧ ∀ d ∈ digits, d.isDigit := by
  fun_cases splitFraction cs
  case case1 d cs hd =>
    refine ⟨_, rfl, by simp, fun e he => ?_⟩
    rcases mem_cons.mp he with rfl | he
    · exact hd
    · exact all_eq_true.mp all_takeWhile e he
  case case2 => simp_all [splitFraction]
  case case3 => simp_all [splitFraction]

theorem splitSuffix_cases (cs : List Char) :
    (splitSuffix cs).1 = [] ∨ ((splitSuffix cs).1 = ['f'] ∨ (splitSuffix cs).1 = ['F']) ∧
      ∀ d ∈ (splitSuffix cs).2.head?, ¬continuesWord d := by
  fun_cases splitSuffix cs
  case case1 c cs h =>
    simp only [Bool.and_eq_true, Bool.or_eq_true, decide_eq_true_eq, Bool.not_eq_true',
      Option.any_eq_false] at h
    exact .inr ⟨by simpa using h.1, by simpa using h.2⟩
  case case2 => exact .inl rfl
  case case3 => exact .inl rfl

theorem splitNumber_numeral (hc : c.isDigit) (cs : List Char) :
    ∃ whole fraction suffix,
      Numeral whole fraction suffix (splitNumber (c :: cs)).2 ∧
      (splitNumber (c :: cs)).1 =
        number (whole ++ fraction ++ suffix) (!fraction.isEmpty || !suffix.isEmpty) := by
  refine ⟨_, _, _, ⟨⟨?_, ?_⟩, ?_, ?_⟩, rfl⟩
  · simp [hc]
  · exact fun d hd => all_eq_true.mp all_takeWhile d hd
  · exact (Classical.em _).imp id splitFraction_head
  · exact splitSuffix_cases _

theorem splitFraction_digits (hne : digits ≠ []) (hd : ∀ d ∈ digits, d.isDigit) (rest : List Char) :
    splitFraction ('.' :: (digits ++ rest)) =
      ('.' :: (digits ++ rest.takeWhile Char.isDigit), rest.dropWhile Char.isDigit) := by
  obtain ⟨d, ds, rfl⟩ := exists_cons_of_ne_nil hne
  have hds : ∀ e ∈ ds, e.isDigit := fun e he => hd e (mem_cons_of_mem _ he)
  simp [splitFraction, hd d (mem_cons_self ..), takeWhile_append_of_pos hds,
    dropWhile_append_of_pos hds]

theorem splitSuffix_letter {rest : List Char} (hc : c = 'f' ∨ c = 'F')
    (hr : ∀ d ∈ rest.head?, ¬continuesWord d) : splitSuffix (c :: rest) = ([c], rest) := by
  have hany : rest.head?.any continuesWord = false := by simpa [Option.any_eq_false] using hr
  simp [splitSuffix, hc, hany]

theorem length_le_splitNumber (h : Numeral whole fraction suffix rest) :
    (whole ++ fraction ++ suffix).length ≤
      (splitNumber (whole ++ fraction ++ suffix ++ rest)).1.text.length := by
  have hletter : ∀ c, suffix = [c] → (c = 'f' ∨ c = 'F') →
      splitSuffix (c :: rest) = ([c], rest) := by
    rintro c rfl hc
    exact splitSuffix_letter hc (h.suffix.resolve_left (by simp)).2
  simp only [splitNumber, text, append_assoc, takeWhile_append_of_pos h.whole.2,
    dropWhile_append_of_pos h.whole.2, length_append]
  rcases h.fraction with rfl | ⟨digits, rfl, hne, hd⟩
  case inl =>
    rcases h.suffix with rfl | ⟨rfl | rfl, _⟩
    · simp
    · simp [splitFraction, hletter]
    · simp [splitFraction, hletter]
  case inr =>
    rcases h.suffix with rfl | ⟨rfl | rfl, _⟩
    · simp [splitFraction_digits hne hd]
      omega
    · simp [splitFraction_digits hne hd, hletter]
    · simp [splitFraction_digits hne hd, hletter]

-- A piece in front of `rest` adds its own token and problems to those of the rest.
def Fits (p : Piece) (rest : List Char) : Prop :=
  ∀ before ts ps, Tiling (before ++ p.text) rest ts ps →
    Tiling before (p.text ++ rest) ((p.token? (behind before)).toList ++ ts)
      (p.problems (behind before) ++ ps)

structure IsLexeme (p : Piece) (kind : Kind) (rest : List Char) : Prop where
  lexeme   : Lexeme kind p.text rest
  token    : ∀ loc, p.token? loc = some ⟨kind, String.ofList p.text, loc⟩
  problems : ∀ loc, p.problems loc = []

theorem IsLexeme.fits {p : Piece} {kind : Kind} (h : p.IsLexeme kind rest) : p.Fits rest := by
  intro before ts ps ht
  rw [h.token, h.problems]
  exact .lexeme h.lexeme ht

theorem lexeme_of_tiles {kind : Kind} {text : List Char} (htiles : text ++ rest = cs)
    (hw : Writes kind text rest)
    (longest : ∀ kind' text' rest', text' ++ rest' = cs → Writes kind' text' rest' → text'.length ≤
      text.length)
    (noComment : ∀ d ∈ ['/', '*'], ¬['/', d] <+: cs) : Lexeme kind text rest := by
  subst htiles
  exact ⟨hw, longest, noComment⟩

theorem exists_cons_of_writes {kind : Kind} {text : List Char} (h : Writes kind text rest)
    (he : text ++ rest = c :: cs) : ∃ ds, text = c :: ds ∧ ds ++ rest = cs := by
  obtain ⟨d, ds, rfl⟩ := exists_cons_of_ne_nil h.ne_nil
  obtain ⟨rfl, rfl⟩ := List.cons.inj he
  exact ⟨ds, rfl, rfl⟩

theorem noComment_of_ne (h : c ≠ '/') : ∀ d ∈ ['/', '*'], ¬['/', d] <+: c :: cs := by
  intro d _ hp
  exact h (cons_prefix_cons.mp hp).1.symm

theorem comment_cases (c : Char) (cs : List Char) :
    (∃ cs', c = '/' ∧ cs = '/' :: cs') ∨ (∃ cs', c = '/' ∧ cs = '*' :: cs') ∨
      ∀ d ∈ ['/', '*'], ¬['/', d] <+: c :: cs := by
  cases cs
  case nil => simp
  case cons d cs => simp; grind

theorem word_isLexeme (h : startsWord c) : ∃ kind,
    (word (c :: cs.takeWhile continuesWord)).IsLexeme kind (cs.dropWhile continuesWord) := by
  have hslash : c ≠ '/' := by
    rintro rfl
    contradiction
  have htiles : c :: cs.takeWhile continuesWord ++ cs.dropWhile continuesWord = c :: cs := by simp
  have hletters : ∀ d ∈ cs.takeWhile continuesWord, continuesWord d :=
    fun d hd => all_eq_true.mp all_takeWhile d hd
  refine ⟨_, lexeme_of_tiles htiles (.word h hletters) ?_ (noComment_of_ne hslash), fun _ => rfl,
    fun _ => rfl⟩
  intro kind' text' rest' he hw
  obtain ⟨ds, rfl, rfl⟩ := exists_cons_of_writes hw he
  rcases hw.cases_head with ⟨_, hds⟩ | ⟨hdigit, _⟩ | ⟨hword, _⟩
  · simp [text, takeWhile_append_of_pos hds]
  · exact absurd hdigit (not_isDigit_of_startsWord h)
  · exact absurd h hword

theorem splitNumber_isLexeme (h : c.isDigit) (cs : List Char) :
    ∃ kind, (splitNumber (c :: cs)).1.IsLexeme kind (splitNumber (c :: cs)).2 := by
  have hslash : c ≠ '/' := by
    rintro rfl
    contradiction
  have htiles := splitNumber_tiles (c :: cs)
  obtain ⟨whole, fraction, suffix, hn, hp⟩ := splitNumber_numeral h cs
  have longest : ∀ kind' text' rest', text' ++ rest' = c :: cs → Writes kind' text' rest' →
      text'.length ≤ (whole ++ fraction ++ suffix).length := by
    intro kind' text' rest' he hw
    obtain ⟨ds, rfl, _⟩ := exists_cons_of_writes hw he
    rcases hw.cases_head with ⟨hword, _⟩ | ⟨_, whole', fraction', suffix', hn', ht'⟩ | ⟨_, hno, _⟩
    · exact absurd h (not_isDigit_of_startsWord hword)
    · have hle := length_le_splitNumber hn'
      rwa [← ht', he, hp] at hle
    · exact absurd h hno
  rw [hp] at htiles ⊢
  by_cases hfloat : fraction ++ suffix = []
  case pos =>
    obtain ⟨rfl, rfl⟩ := append_eq_nil_iff.mp hfloat
    simp only [append_nil] at htiles longest ⊢
    exact ⟨_, lexeme_of_tiles htiles (.integer hn) longest (noComment_of_ne hslash), fun _ => rfl,
      fun _ => rfl⟩
  case neg =>
    have hkind : (!fraction.isEmpty || !suffix.isEmpty) = true := by
      cases fraction <;> simp_all
    rw [hkind] at htiles ⊢
    exact ⟨_, lexeme_of_tiles htiles (.float hn hfloat) longest (noComment_of_ne hslash),
      fun _ => rfl, fun _ => rfl⟩

theorem splitSign_cases (hblank : ¬isBlank c) (hquote : c ≠ '"') (hword : ¬startsWord c)
    (hdigit : ¬c.isDigit) (hc : ∀ d ∈ ['/', '*'], ¬['/', d] <+: c :: cs) :
    (∃ kind, (splitSign c cs).1.IsLexeme kind (splitSign c cs).2) ∨
      splitSign c cs = (rejected c, cs) ∧ Rejected c cs := by
  -- Every other form at this place is a sign.
  have hsign : ∀ kind text rest, text ++ rest = c :: cs → Writes kind text rest →
      (text, kind) ∈ signTable ∧ text <+: c :: cs := by
    intro kind text rest he hw
    obtain ⟨ds, rfl, _⟩ := exists_cons_of_writes hw he
    rcases hw.cases_head with ⟨h, _⟩ | ⟨h, _⟩ | ⟨_, _, h⟩
    · exact absurd h hword
    · exact absurd h hdigit
    · exact ⟨h, he ▸ prefix_append ..⟩
  have htiles := splitSign_tiles c cs
  revert htiles
  unfold splitSign
  split
  case h_1 text kind hfind =>
    intro htiles
    obtain ⟨hk, spelling, hs, rfl⟩ := mem_signTable_iff.mp (mem_of_find?_eq_some hfind)
    refine .inl ⟨kind, lexeme_of_tiles htiles (.sign hk hs) (fun kind' text' rest' he hw => ?_) hc,
      fun _ => rfl, fun _ => rfl⟩
    obtain ⟨hm, hp⟩ := hsign kind' text' rest' he hw
    exact length_le_of_find?_signTable hfind hm hp
  case h_2 hfind =>
    refine fun _ => .inr ⟨rfl, hblank, hquote, fun kind text rest he hw => ?_⟩
    obtain ⟨hm, hp⟩ := hsign kind text rest he hw
    exact find?_eq_none.mp hfind _ hm (List.isPrefixOf_iff_prefix.mpr hp)

-- Where there is no blank, comment or string, a token is read or a character is rejected.
theorem next_cases (hblank : ¬isBlank c) (hquote : c ≠ '"')
    (hc : ∀ d ∈ ['/', '*'], ¬['/', d] <+: c :: cs) :
    (∃ kind, (next c cs).1.IsLexeme kind (next c cs).2) ∨
      next c cs = (rejected c, cs) ∧ Rejected c cs := by
  unfold next
  simp only [if_neg hblank, if_neg hquote]
  split
  case isTrue h => exact .inl (word_isLexeme h)
  case isFalse hword =>
  split
  case isTrue h => exact .inl (splitNumber_isLexeme h cs)
  case isFalse hdigit =>
  split
  case isTrue h =>
    subst h
    have hsign : splitSlash cs = splitSign '/' cs := by
      unfold splitSlash
      split
      case h_1 => exact absurd (by simp) (hc '/' (by simp))
      case h_2 => exact absurd (by simp) (hc '*' (by simp))
      case h_3 => rfl
    exact hsign ▸ splitSign_cases hblank hquote hword hdigit hc
  case isFalse => exact splitSign_cases hblank hquote hword hdigit hc

theorem splitLine_fits (cs : List Char) : (lineComment (splitLine cs).1).Fits (splitLine cs).2 := by
  have hline : '\n' ∉ cs.takeWhile (· ≠ '\n') := by
    intro h
    simpa using all_eq_true.mp all_takeWhile _ h
  have htiles := takeWhile_append_dropWhile (p := (· ≠ '\n')) (l := cs)
  have hrest := head?_dropWhile_not (· ≠ '\n') cs
  unfold splitLine
  split
  case h_1 hd =>
    intro before ts ps ht
    rw [hd, append_nil] at htiles
    exact .lineComment (htiles ▸ hline) (by simp) ht
  case h_2 c rest hd =>
    intro before ts ps ht
    rw [hd] at hrest
    obtain rfl : c = '\n' := by simpa using hrest
    -- The line feed is a blank behind the comment.
    have hnext : Tiling (before ++ '/' :: '/' :: cs.takeWhile (· ≠ '\n')) ('\n' :: rest) ts ps :=
      .blank rfl (by simpa [text] using ht)
    simpa [text, token?, problems] using Tiling.lineComment hline (by simp) hnext

theorem splitComment_body (taken cs : List Char) :
    ∃ body, (splitComment taken cs).1 = taken.reverse ++ body ∧ body <+: cs ∧
      ¬['*', '/'] <:+: body ∧
      ((splitComment taken cs).2.1 = false → (splitComment taken cs).2.2 = []) := by
  fun_induction splitComment taken cs
  case case1 => exact ⟨[], by simp⟩
  case case2 => exact ⟨[], by simp⟩
  case case3 taken c cs hne ih =>
    obtain ⟨body, hbody, hprefix, hno, hrest⟩ := ih
    refine ⟨c :: body, by simp [hbody], by simpa using hprefix, fun h => ?_, hrest⟩
    rcases infix_cons_iff.mp h with h | h
    · obtain ⟨hc, h⟩ := cons_prefix_cons.mp h
      obtain ⟨cs', rfl⟩ := h.trans hprefix
      exact hne cs' hc.symm rfl
    · exact hno h

theorem splitComment_fits (cs : List Char) :
    (blockComment (splitComment [] cs).1 (splitComment [] cs).2.1).Fits
      (splitComment [] cs).2.2 := by
  obtain ⟨body, hbody, _, hno, hrest⟩ := splitComment_body [] cs
  rw [hbody]
  generalize (splitComment [] cs).2 = rest at *
  intro before ts ps ht
  cases hclosed : rest.1
  case true =>
    rw [hclosed] at ht
    simpa [text, token?, problems] using Tiling.blockComment hno (by simpa [text] using ht)
  case false =>
    rw [hclosed, hrest hclosed] at ht
    simpa [text, token?, problems, hrest hclosed] using
      Tiling.openComment hno (by simpa [text] using ht)

theorem splitQuoted_spells (taken cs before : List Char) :
    ∃ inside lone content escapes, (splitQuoted taken cs).1 = taken.reverse ++ (inside ++ lone) ∧
      Spells before inside content escapes ∧
      if (splitQuoted taken cs).2.1 then lone = []
      else Unclosed lone (splitQuoted taken cs).2.2 := by
  fun_induction splitQuoted taken cs generalizing before
  case case1 => exact ⟨[], [], [], [], by simp, .nil, .atEnd⟩
  case case2 => exact ⟨[], [], [], [], by simp, .nil, rfl⟩
  case case3 => exact ⟨[], [], [], [], by simp, .nil, .atLine⟩
  case case4 taken c cs ih =>
    obtain ⟨inside, lone, content, escapes, hinside, hspells, hend⟩ := ih (before ++ ['\\', c])
    have htaken : (c :: '\\' :: taken).reverse ++ (inside ++ lone) =
        taken.reverse ++ ('\\' :: c :: inside ++ lone) := by
      simp
    cases he : escape? c
    case none =>
      exact ⟨_, lone, content, _, hinside.trans htaken, .unknown he hspells, hend⟩
    case some e =>
      exact ⟨_, lone, e :: content, escapes, hinside.trans htaken, .known he hspells, hend⟩
  case case5 taken c cs hquote hline hback ih =>
    by_cases hc : c = '\\'
    case pos =>
      -- Only at the end of the text does a backslash take no character with it.
      subst hc
      cases cs
      case nil => exact ⟨[], ['\\'], [], [], by simp [splitQuoted], .nil, .atBackslash⟩
      case cons d ds => exact absurd rfl (hback d ds rfl)
    case neg =>
      obtain ⟨inside, lone, content, escapes, hinside, hspells, hend⟩ := ih (before ++ [c])
      refine ⟨c :: inside, lone, c :: content, escapes, by simp [hinside], ?_, hend⟩
      exact .plain hquote hline hc hspells

end Piece

theorem Unclosed.lone_cases (h : Unclosed lone rest) : lone = [] ∨ lone = ['\\'] := by
  cases h <;> simp

namespace Spells

variable {before inside content lone : List Char} {escapes : List LexicalProblem}

theorem unescape_eq (h : Spells before inside content escapes) (hl : lone = [] ∨ lone = ['\\'])
    (taken : List Char) : unescape taken (inside ++ lone) = taken.reverse ++ content := by
  induction h generalizing taken
  case nil => rcases hl with rfl | rfl <;> simp [unescape]
  case plain c inside content escapes hquote hline hback h ih =>
    rw [cons_append, unescape, ih]
    · simp
    · simp [hback]
    · simp [hback]
  case known c e inside content escapes he h ih =>
    simp [unescape, he, ih]
  case unknown c inside content escapes he h ih =>
    simp [unescape, he, ih]

theorem unknownEscapes_eq (h : Spells before inside content escapes)
    (hl : lone = [] ∨ lone = ['\\']) :
    unknownEscapes (behind before) (inside ++ lone) = escapes := by
  induction h
  case nil => rcases hl with rfl | rfl <;> simp [unknownEscapes]
  case plain before c inside content escapes hquote hline hback h ih =>
    rw [cons_append, unknownEscapes, ← Location.behind_concat, ih]
    simp [hback]
  case known before c e inside content escapes he h ih =>
    have hloc : behind (before ++ ['\\', c]) = ((behind before).after '\\').after c :=
      Location.behind_append ..
    simp [unknownEscapes, he, ← hloc, ih]
  case unknown before c inside content escapes he h ih =>
    have hloc : behind (before ++ ['\\', c]) = ((behind before).after '\\').after c :=
      Location.behind_append ..
    simp [unknownEscapes, he, ← hloc, ih]

end Spells

namespace Piece

theorem splitQuoted_fits (cs : List Char) :
    (quoted (splitQuoted [] cs).1 (splitQuoted [] cs).2.1).Fits (splitQuoted [] cs).2.2 := by
  intro before ts ps ht
  obtain ⟨inside, lone, content, escapes, hinside, hspells, hend⟩ :=
    splitQuoted_spells [] cs (before ++ ['"'])
  have hlone : lone = [] ∨ lone = ['\\'] := by
    split at hend
    · exact .inl hend
    · exact hend.lone_cases
  have hcontent : unescape [] (inside ++ lone) = content := by
    simpa using hspells.unescape_eq hlone []
  have hescapes : unknownEscapes ((behind before).after '"') (inside ++ lone) = escapes := by
    rw [← Location.behind_concat, hspells.unknownEscapes_eq hlone]
  rw [reverse_nil, nil_append] at hinside
  rw [hinside] at ht ⊢
  generalize (splitQuoted [] cs).2 = rest at *
  cases hclosed : rest.1
  case true =>
    rw [hclosed] at ht hend
    obtain rfl : lone = [] := hend
    rw [append_nil] at hcontent hescapes
    simpa [text, token?, problems, hcontent, hescapes] using
      Tiling.string hspells (by simpa [text] using ht)
  case false =>
    rw [hclosed] at ht hend
    simpa [text, token?, problems, hcontent, hescapes] using
      Tiling.openString hspells hend (by simpa [text] using ht)

-- What reading takes off a text is what a tiling takes off.
theorem next_fits (c : Char) (cs : List Char) : (next c cs).1.Fits (next c cs).2 := by
  by_cases hblank : isBlank c
  case pos =>
    simp only [next, hblank, if_true]
    exact fun _ _ _ ht => .blank hblank ht
  by_cases hquote : c = '"'
  case pos => exact hquote ▸ splitQuoted_fits cs
  rcases comment_cases c cs with ⟨cs, rfl, rfl⟩ | ⟨cs, rfl, rfl⟩ | hc
  · exact splitLine_fits cs
  · exact splitComment_fits cs
  rcases next_cases hblank hquote hc with ⟨kind, h⟩ | ⟨h, hrejected⟩
  · exact h.fits
  · rw [h]
    exact fun _ _ _ ht => .rejected hrejected ht

end Piece

theorem piecesOnto_append (done : Array Piece) (cs : List Char) :
    piecesOnto done cs = done ++ pieces cs := by
  cases cs
  case nil => simp [pieces, piecesOnto]
  case cons c cs =>
    have hfirst := piecesOnto_append (done.push (Piece.next c cs).1) (Piece.next c cs).2
    have hnone := piecesOnto_append #[(Piece.next c cs).1] (Piece.next c cs).2
    rw [pieces, piecesOnto, piecesOnto, hfirst, ← Array.append_singleton, Array.append_assoc]
    exact congrArg (done ++ ·) hnone.symm
termination_by cs.length
decreasing_by all_goals exact Piece.next_length_lt _ _

theorem pieces_cons (c : Char) (cs : List Char) :
    (pieces (c :: cs)).toList = (Piece.next c cs).1 :: (pieces (Piece.next c cs).2).toList := by
  rw [pieces, piecesOnto, piecesOnto_append]
  simp

-- The tokens and problems of its pieces tile a text.
theorem tiling_pieces (before text : List Char) :
    Tiling before text (tokensFrom (behind before) (pieces text).toList)
      (problemsFrom (behind before) (pieces text).toList) := by
  cases text
  case nil =>
    rw [pieces, piecesOnto]
    exact .done
  case cons c cs =>
    have hrest := tiling_pieces (before ++ (Piece.next c cs).1.text) (Piece.next c cs).2
    rw [Location.behind_append] at hrest
    rw [pieces_cons, tokensFrom, problemsFrom]
    exact Piece.next_tiles c cs ▸ Piece.next_fits c cs before _ _ hrest
termination_by text.length
decreasing_by exact Piece.next_length_lt _ _

variable {cs rest fraction suffix : List Char} {k : Kind}

structure Regular (t : Token) : Prop where
  noEnd   : t.kind ≠ .endMarker
  name    : t.kind = .identifier → IsName t.text
  integer : t.kind = .integer → Numeral t.text.toList [] [] []
  float   : t.kind = .float → ∃ whole fraction suffix,
    t.text.toList = whole ++ fraction ++ suffix ∧ Numeral whole fraction suffix [] ∧
      fraction ++ suffix ≠ []

theorem Numeral.alone (h : Numeral cs fraction suffix rest) : Numeral cs fraction suffix [] :=
  ⟨h.whole, h.fraction, h.suffix.imp_right fun hs => ⟨hs.1, by simp⟩⟩

theorem Writes.regular (h : Writes k cs rest) (loc : Location) :
    Regular ⟨k, String.ofList cs, loc⟩ := by
  have other (hk : k.category ∉ [.literal, .identifier, .endMarker]) :
      Regular ⟨k, String.ofList cs, loc⟩ := by
    constructor <;> rintro rfl <;> simp [Kind.category] at hk
  cases h
  case word c cs hc hcs =>
    cases hw : Kind.ofWord? (String.ofList (c :: cs))
    case none =>
      refine ⟨by simp, fun _ => ⟨?_, hw⟩, by simp, by simp⟩
      rw [String.toList_ofList]
      exact forall_mem_cons.mpr ⟨continuesWord_of_startsWord hc, hcs⟩
    case some k =>
      have all : ∀ entry ∈ Kind.reserved, entry.2.category = .keyword := by decide +kernel
      obtain ⟨_, _, hl, _⟩ := lookup_eq_some_iff.mp hw
      have hcat := all _ (hl ▸ mem_append_right _ mem_cons_self)
      rw [hw] at other
      exact other (by simp [hcat])
  case integer h => exact ⟨by simp, by simp, fun _ => by simpa using h.alone, by simp⟩
  case float hne h =>
    exact ⟨by simp, by simp, by simp, fun _ => ⟨_, _, _, String.toList_ofList, h.alone, hne⟩⟩
  case sign hk _ =>
    simp only [Kind.isSign, Bool.or_eq_true, decide_eq_true_eq] at hk
    rcases hk with hk | hk <;> exact other (by simp [hk])

-- Only the last token of a text is an end marker.
theorem Tiling.regular {before : List Char} (h : Tiling before cs ts ps) :
    ∃ front loc, ts = front ++ [.ending loc] ∧ ∀ t ∈ front, t.Regular := by
  have cons {t : Token} {ts : List Token} (ht : t.Regular)
      (ih : ∃ front loc, ts = front ++ [.ending loc] ∧ ∀ t ∈ front, t.Regular) :
      ∃ front loc, t :: ts = front ++ [.ending loc] ∧ ∀ t ∈ front, t.Regular := by
    obtain ⟨front, loc, rfl, hfront⟩ := ih
    exact ⟨t :: front, loc, rfl, forall_mem_cons.mpr ⟨ht, hfront⟩⟩
  induction h
  case done => exact ⟨[], _, rfl, by simp⟩
  case lexeme h _ ih => exact cons (h.writes.regular _) ih
  case string ih => exact cons ⟨by simp, by simp, by simp, by simp⟩ ih
  case openString ih => exact cons ⟨by simp, by simp, by simp, by simp⟩ ih
  all_goals assumption

end Token

theorem Lexed.ofSource_regular (source : String) :
    ∃ front loc, (ofSource source).tokens.toList = front ++ [.ending loc] ∧
      ∀ t ∈ front, t.Regular := by
  rw [tokens_ofSource]
  exact (Token.tiling_pieces [] source.toList).regular

theorem Lexed.regular_of_mem (ht : t ∈ (ofSource source).tokens.toList)
    (hk : t.kind ≠ .endMarker) : t.Regular := by
  obtain ⟨front, loc, htokens, hfront⟩ := ofSource_regular source
  rcases mem_append.mp (htokens ▸ ht) with ht | ht
  · exact hfront t ht
  · exact absurd (mem_singleton.mp ht ▸ rfl) hk

theorem Lexed.ofSource_isName (source : String) :
    ∀ t ∈ (ofSource source).tokens.toList, t.kind = .identifier → Token.IsName t.text :=
  fun _ ht hk => (regular_of_mem ht (by simp [hk])).name hk

def LexicalProblem.isUnexpected (p : LexicalProblem) : Bool :=
  match p.cause with
  | .unexpectedCharacter _ => true
  | _ => false

namespace Token

theorem Spells.filter_isUnexpected (h : Spells before inside content escapes) :
    escapes.filter (·.isUnexpected) = [] := by
  induction h
  case nil => rfl
  case plain ih => exact ih
  case known ih => exact ih
  case unknown ih => simpa [LexicalProblem.isUnexpected] using ih

-- No two rejected characters are reported at one place, and none in front of `loc`.
structure RejectedFrom (loc : Location) (ps : List LexicalProblem) : Prop where
  le     : ∀ p ∈ ps.filter (·.isUnexpected), loc ≤ p.loc
  sorted : (ps.filter (·.isUnexpected)).Pairwise (·.loc < ·.loc)

namespace RejectedFrom

variable {loc loc' : Location} {ps : List LexicalProblem}

theorem mono (h : RejectedFrom loc ps) (hl : loc' ≤ loc) : RejectedFrom loc' ps :=
  ⟨fun p hp => Location.le_trans hl (h.le p hp), h.sorted⟩

theorem append (h : RejectedFrom loc ps) (qs : List LexicalProblem)
    (hq : qs.filter (·.isUnexpected) = []) : RejectedFrom loc (qs ++ ps) := by
  constructor
  · simpa only [filter_append, hq, nil_append] using h.le
  · simpa only [filter_append, hq, nil_append] using h.sorted

theorem cons (h : RejectedFrom loc ps) (hl : loc' < loc) (c : Char) :
    RejectedFrom loc' (⟨.unexpectedCharacter c, loc'⟩ :: ps) := by
  have hle : ∀ p ∈ ps.filter (·.isUnexpected), loc' < p.loc :=
    fun p hp => Location.lt_of_lt_of_le hl (h.le p hp)
  have hcons : (⟨.unexpectedCharacter c, loc'⟩ :: ps).filter (·.isUnexpected) =
      ⟨.unexpectedCharacter c, loc'⟩ :: ps.filter (·.isUnexpected) :=
    rfl
  constructor
  · rw [hcons]
    intro p hp
    rcases mem_cons.mp hp with rfl | hp
    · exact Location.le_refl _
    · exact Location.le_of_lt (hle p hp)
  · rw [hcons]
    exact pairwise_cons.mpr ⟨hle, h.sorted⟩

end RejectedFrom

theorem Tiling.rejectedFrom {before text : List Char} (h : Tiling before text ts ps) :
    RejectedFrom (behind before) ps := by
  have hle := Location.behind_le_append
  induction h
  case done => exact ⟨by simp, .nil⟩
  case blank ih => exact ih.mono (hle ..)
  case lineComment ih => exact ih.mono (hle ..)
  case blockComment ih => exact ih.mono (hle ..)
  case openComment ih => exact (ih.mono (hle ..)).append [_] rfl
  case lexeme ih => exact ih.mono (hle ..)
  case string hs _ ih => exact (ih.mono (hle ..)).append _ hs.filter_isUnexpected
  case openString hs _ _ ih =>
    exact ((ih.mono (hle ..)).append [_] rfl).append _ hs.filter_isUnexpected
  case rejected c _ _ _ _ _ ih => exact ih.cons (Location.behind_lt_append _ (by simp)) c

end Token

namespace Lexed

open Token (problemsFrom)

theorem problems_ofPiecesOnto (ts : Array Token) (ps : Array LexicalProblem) (loc : Location)
    (pieces : List Token.Piece) :
    (ofPiecesOnto ts ps loc pieces).problems.toList = ps.toList ++ problemsFrom loc pieces := by
  induction pieces generalizing ts ps loc
  case nil => simp [ofPiecesOnto, problemsFrom]
  case cons p rest ih => simp [ofPiecesOnto, problemsFrom, ih]

theorem problems_ofSource (source : String) :
    (ofSource source).problems.toList =
      problemsFrom .first (Token.pieces source.toList).toList := by
  simp [ofSource, ofPieces, problems_ofPiecesOnto]

-- The tokens and problems of a source text are those of a tiling, and they stand in the order of
-- the text: tokens at places that grow, and so do the reports of rejected characters.
theorem ofSource_tiling (source : String) :
    Token.Tiling [] source.toList (ofSource source).tokens.toList
      (ofSource source).problems.toList ∧
    (ofSource source).tokens.toList.Pairwise (·.loc < ·.loc) ∧
    ((ofSource source).problems.toList.filter (·.isUnexpected)).Pairwise (·.loc < ·.loc) := by
  have htiling : Token.Tiling [] source.toList (ofSource source).tokens.toList
      (ofSource source).problems.toList := by
    rw [tokens_ofSource, problems_ofSource]
    exact Token.tiling_pieces [] source.toList
  exact ⟨htiling, ofSource_sorted source, htiling.rejectedFrom.sorted⟩

end Lexed
end Lumen
