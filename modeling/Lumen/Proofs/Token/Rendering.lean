import Lumen.Proofs.Token.Tiling

namespace Lumen

open List

open Location (behind)

namespace Token

-- What may stand between tokens: blanks, and comments that have ended.
inductive Gap : List Char → Prop
  | nil : Gap []
  | blank {c rest} : isBlank c → Gap rest → Gap (c :: rest)
  | lineComment {body rest} : '\n' ∉ body → Gap rest → Gap ('/' :: '/' :: (body ++ '\n' :: rest))
  | blockComment {body rest} : ¬['*', '/'] <:+: body → Gap rest →
    Gap ('/' :: '*' :: (body ++ '*' :: '/' :: rest))

inductive Separator : List Char → Prop
  | intro {c gap} : isBlank c → Gap gap → Separator (c :: gap)

def escaped (content : List Char) : List Char :=
  content.flatMap fun c => match c with
    | '\\' => ['\\', '\\']
    | '"' => ['\\', '"']
    | '\n' => ['\\', 'n']
    | c => [c]

def written (kind : Kind) (text : String) : List Char :=
  if kind = .string then '"' :: (escaped text.toList ++ ['"']) else text.toList

inductive Rendering : List (Kind × String) → List Char → Prop
  | nil : Rendering [] []
  | cons {kind text gap ts rest} : kind = .string ∨ Writes kind text.toList [] →
    Separator gap ∨ gap = [] ∧ ts = [] → Rendering ts rest →
    Rendering ((kind, text) :: ts) (written kind text ++ (gap ++ rest))

namespace Piece

variable {body rest : List Char}

theorem splitLine_ended (h : '\n' ∉ body) :
    splitLine (body ++ '\n' :: rest) = (body ++ ['\n'], rest) := by
  have hall : ∀ c ∈ body, decide (c ≠ '\n') := by
    intro c hc
    simpa using ne_of_mem_of_not_mem hc h
  rw [splitLine, dropWhile_append_of_pos hall, takeWhile_append_of_pos hall]
  simp

theorem splitComment_closed (h : ¬['*', '/'] <:+: body) (taken : List Char) :
    splitComment taken (body ++ '*' :: '/' :: rest) = (taken.reverse ++ body, true, rest) := by
  induction body generalizing taken
  case nil => simp [splitComment]
  case cons c body ih =>
    have hno : ¬['*', '/'] <:+: body := fun hin => h (infix_cons_iff.mpr (.inr hin))
    have hhead : ∀ cs, c = '*' → body ++ '*' :: '/' :: rest = '/' :: cs → False := by
      rintro cs rfl hcs
      cases body
      case nil => simp at hcs
      case cons d body =>
        obtain ⟨rfl, -⟩ := List.cons.inj hcs
        exact h (infix_cons_iff.mpr (.inl (by simp)))
    rw [cons_append, splitComment.eq_3 _ _ _ hhead, ih hno]
    simp

end Piece

namespace Spells

variable {before inside content : List Char} {escapes : List LexicalProblem}

-- The first quote that no backslash precedes closes the literal.
theorem splitQuoted_closed (h : Spells before inside content escapes) (taken rest : List Char) :
    Piece.splitQuoted taken (inside ++ '"' :: rest) = (taken.reverse ++ inside, true, rest) := by
  induction h generalizing taken
  case nil => simp [Piece.splitQuoted]
  case plain hquote hline hback _ ih => simp [Piece.splitQuoted, hback, ih]
  case known ih => simp [Piece.splitQuoted, ih]
  case unknown ih => simp [Piece.splitQuoted, ih]

theorem escaped (before content : List Char) : Spells before (escaped content) content [] := by
  induction content generalizing before
  case nil => exact .nil
  case cons c content ih =>
    rw [Token.escaped, flatMap_cons]
    split
    case h_1 => exact .known rfl (ih _)
    case h_2 => exact .known rfl (ih _)
    case h_3 => exact .known rfl (ih _)
    case h_4 hback hquote hline => exact .plain hquote hline hback (ih _)

end Spells

theorem not_continuesWord_of_isBlank (h : isBlank c) : ¬continuesWord c := by
  simp only [isBlank, Bool.or_eq_true, decide_eq_true_eq] at h
  rcases h with ((rfl | rfl) | rfl) | rfl <;> decide

theorem continuesWord_of_isDigit (h : c.isDigit) : continuesWord c := by
  simp [continuesWord, Char.isAlphanum, h]

namespace Writes

variable {kind kind' : Kind} {text rest rest' : List Char}

section

variable (h : Writes kind text rest)

include h

-- No written form but a string holds a blank or a quote.
theorem plain : ∀ c ∈ text, ¬isBlank c ∧ c ≠ '"' := by
  have hword (c : Char) (hc : continuesWord c) : ¬isBlank c ∧ c ≠ '"' := by
    refine ⟨fun hb => not_continuesWord_of_isBlank hb hc, ?_⟩
    rintro rfl
    contradiction
  have hdigit (c : Char) (hc : c.isDigit) := hword c (continuesWord_of_isDigit hc)
  intro c hc
  cases h
  case word hstart hcs =>
    rcases mem_cons.mp hc with rfl | hc
    · exact hword c (continuesWord_of_startsWord hstart)
    · exact hword c (hcs c hc)
  case integer hn => exact hdigit c (hn.whole.2 c hc)
  case float hn =>
    simp only [mem_append, or_assoc] at hc
    rcases hc with hc | hc | hc
    · exact hdigit c (hn.whole.2 c hc)
    · rcases hn.fraction with rfl | ⟨digits, rfl, -, hd⟩
      · exact absurd hc not_mem_nil
      · rcases mem_cons.mp hc with rfl | hc
        · decide
        · exact hdigit c (hd c hc)
    · rcases hn.suffix with rfl | ⟨rfl | rfl, -⟩
      · exact absurd hc not_mem_nil
      · exact mem_singleton.mp hc ▸ by decide
      · exact mem_singleton.mp hc ▸ by decide
  case sign hk hs =>
    have all : ∀ entry ∈ Piece.signTable, entry.1.all fun c => !isBlank c && c ≠ '"' := by
      decide +kernel
    have hsign := all _ (mem_signTable_iff.mpr ⟨hk, _, hs, rfl⟩)
    simpa using all_eq_true.mp hsign c hc

-- A written form has one kind.
theorem kind_eq : kind =
    if text.head?.any startsWord then (Kind.ofWord? (String.ofList text)).getD .identifier
    else if text.head?.any Char.isDigit then if text.all Char.isDigit then .integer else .float
    else (Piece.signTable.lookup text).getD .identifier := by
  have hdigit (c : Char) (hc : c.isDigit) : startsWord c = false :=
    Bool.eq_false_iff.mpr fun hs => not_isDigit_of_startsWord hs hc
  cases h
  case word hc _ => simp [hc]
  case integer hn =>
    obtain ⟨c, cs, rfl⟩ := exists_cons_of_ne_nil hn.whole.1
    have hall := all_eq_true.mpr hn.whole.2
    have hc := hn.whole.2 c (mem_cons_self ..)
    simp only [head?_cons, Option.any_some, hdigit c hc, hc, hall]
    rfl
  case float whole fraction suffix hne hn =>
    obtain ⟨c, cs, rfl⟩ := exists_cons_of_ne_nil hn.whole.1
    have hc := hn.whole.2 c (mem_cons_self ..)
    have hall : (c :: cs ++ fraction ++ suffix).all Char.isDigit = false := by
      rcases hn.fraction with rfl | ⟨digits, rfl, -⟩
      · rcases hn.suffix with rfl | ⟨rfl | rfl, -⟩
        · exact absurd rfl hne
        · simp
        · simp
      · simp
    rw [hall]
    simp [hdigit c hc, hc]
  case sign spelling hk hs =>
    have all : ∀ entry ∈ Piece.signTable, Piece.signTable.lookup entry.1 = some entry.2 := by
      decide +kernel
    obtain ⟨c, cs, hcs, hword, hd⟩ := sign_head hk hs
    rw [all _ (mem_signTable_iff.mpr ⟨hk, spelling, hs, rfl⟩)]
    simp [hcs, hword, hd]

-- Only a number that ends in a letter depends on what follows it.
theorem before (hrest : ∀ d ∈ rest'.head?, ¬continuesWord d) :
    Writes kind text rest' := by
  cases h
  case word hc hcs => exact .word hc hcs
  case integer hn => exact .integer ⟨hn.whole, hn.fraction, .inl rfl⟩
  case float hne hn => exact .float ⟨hn.whole, hn.fraction, hn.suffix.imp_right (⟨·.1, hrest⟩)⟩ hne
  case sign hk hs => exact .sign hk hs

end

theorem ofWord (word : String) (hstart : word.toList.head?.any startsWord)
    (hall : word.toList.all continuesWord) :
    Writes ((Kind.ofWord? word).getD .identifier) word.toList rest := by
  rw [← String.ofList_toList (s := word), String.toList_ofList]
  cases hw : word.toList <;> rw [hw] at hstart hall
  case nil => cases hstart
  case cons c cs =>
    exact .word hstart fun d hd => all_eq_true.mp hall d (mem_cons_of_mem c hd)

-- Every word and sign with a meaning of its own is a written form of its kind.
theorem ofSpelling {spelling : String} (h : kind.spelling? = some spelling) :
    Writes kind spelling.toList rest := by
  have hwords : ∀ entry ∈ Kind.reserved, entry.1.toList.head?.any startsWord ∧
      entry.1.toList.all continuesWord ∧ Kind.ofWord? entry.1 = some entry.2 := by
    decide +kernel
  have hkind : kind.isSign ∨ (spelling, kind) ∈ Kind.reserved := by
    cases kind <;> cases h <;> first | exact .inl rfl | exact .inr (by decide +kernel)
  rcases hkind with hsign | hword
  · exact .sign hsign h
  · obtain ⟨hstart, hall, hk⟩ := hwords _ hword
    have hwrites : Writes _ spelling.toList rest := ofWord spelling hstart hall
    rwa [hk] at hwrites

end Writes

namespace Piece

variable {kind : Kind} {text rest : List Char}

theorem next_slash (cs : List Char) : next '/' cs = splitSlash cs :=
  rfl

theorem next_quote (cs : List Char) :
    next '"' cs = (quoted (splitQuoted [] cs).1 (splitQuoted [] cs).2.1, (splitQuoted [] cs).2.2) :=
  rfl

theorem noComment_of_writes (h : Writes kind text rest) (hrest : ∀ d ∈ rest.head?, isBlank d) :
    ∀ d ∈ ['/', '*'], ¬['/', d] <+: text ++ rest := by
  have all : ∀ entry ∈ signTable, entry.1.take 2 ∉ [['/', '/'], ['/', '*']] := by decide +kernel
  intro d hd hp
  obtain ⟨c, cs, rfl⟩ := exists_cons_of_ne_nil h.ne_nil
  obtain ⟨rfl, hsecond⟩ := cons_prefix_cons.mp hp
  cases cs with
  | nil =>
    obtain ⟨more, rfl⟩ := hsecond
    have := hrest d (by simp)
    simp only [mem_cons, not_mem_nil, or_false] at hd
    rcases hd with rfl | rfl <;> contradiction
  | cons e cs =>
    obtain ⟨rfl, -⟩ := cons_prefix_cons.mp hsecond
    rcases h.cases_head with ⟨hc, -⟩ | ⟨hc, -⟩ | ⟨-, -, hm⟩
    · contradiction
    · contradiction
    · exact all _ hm (by simpa using hd)

-- A written form in front of a blank, or at the end, is the longest one.
theorem next_of_writes (h : Writes kind (c :: cs) []) (hrest : ∀ d ∈ rest.head?, isBlank d) :
    ∃ p, next c (cs ++ rest) = (p, rest) ∧ p.text = c :: cs ∧ p.IsLexeme kind rest := by
  have hw : Writes kind (c :: cs) rest :=
    h.before fun d hd => not_continuesWord_of_isBlank (hrest d hd)
  obtain ⟨hblank, hquote⟩ := hw.plain c (mem_cons_self ..)
  have htiles := next_tiles c (cs ++ rest)
  rcases next_cases hblank hquote (noComment_of_writes hw hrest) with ⟨kind', hp⟩ | ⟨-, hrejected⟩
  case inr => exact absurd hw (hrejected.writes kind (c :: cs) rest rfl)
  case inl =>
    generalize next c (cs ++ rest) = found at *
    obtain ⟨p, rest'⟩ := found
    have hlength := hp.lexeme.longest kind (c :: cs) rest htiles.symm hw
    obtain ⟨more, hmore⟩ : c :: cs <+: p.text :=
      prefix_of_prefix_length_le (prefix_append _ rest) ⟨rest', htiles⟩ hlength
    have htail : rest = more ++ rest' := by simpa [← hmore] using htiles.symm
    cases more
    case nil =>
      obtain rfl : rest = rest' := htail
      have htext : p.text = c :: cs := by simpa using hmore.symm
      have hkind : kind' = kind := (htext ▸ hp.lexeme.writes).kind_eq.trans hw.kind_eq.symm
      exact ⟨p, rfl, htext, hkind ▸ hp⟩
    case cons d more =>
      have hd : isBlank d := hrest d (by simp [htail])
      exact absurd hd (hp.lexeme.writes.plain d (by simp [← hmore])).1

end Piece

-- What is read from a text with which nothing is wrong, wherever it stands.
def Yields (text : List Char) (ts : List (Kind × String)) : Prop :=
  ∀ before, (tokensFrom (behind before) (pieces text).toList).map (fun t => (t.kind, t.text)) = ts ∧
    problemsFrom (behind before) (pieces text).toList = []

namespace Yields

variable {rest : List Char} {t ts : List (Kind × String)} {p : Piece}

theorem nil : Yields [] [(.endMarker, "")] :=
  fun _ => by simp [pieces, piecesOnto, tokensFrom, problemsFrom, Token.ending]

theorem cons (hnext : Piece.next c cs = (p, rest))
    (hp : ∀ before, (p.token? (behind before)).toList.map (fun t => (t.kind, t.text)) = t ∧
      p.problems (behind before) = [])
    (h : Yields rest ts) : Yields (c :: cs) (t ++ ts) := by
  intro before
  obtain ⟨htokens, hproblems⟩ := h (before ++ p.text)
  rw [Location.behind_append] at htokens hproblems
  rw [pieces_cons, hnext, tokensFrom, problemsFrom, map_append, (hp before).1, htokens,
    (hp before).2, hproblems]
  exact ⟨rfl, rfl⟩

theorem behind_gap (hgap : Gap gap) (h : Yields rest ts) : Yields (gap ++ rest) ts := by
  induction hgap
  case nil => exact h
  case blank c gap hc _ ih =>
    have hnext : Piece.next c (gap ++ rest) = (.blank c, gap ++ rest) := if_pos hc
    exact cons hnext (fun _ => ⟨rfl, rfl⟩) ih
  case lineComment body gap hbody _ ih =>
    have hnext : Piece.next '/' ('/' :: (body ++ '\n' :: gap ++ rest)) =
        (.lineComment (body ++ ['\n']), gap ++ rest) := by
      rw [append_assoc, cons_append, Piece.next_slash, Piece.splitSlash,
        Piece.splitLine_ended hbody]
    exact cons hnext (fun _ => ⟨rfl, rfl⟩) ih
  case blockComment body gap hbody _ ih =>
    have hnext : Piece.next '/' ('*' :: (body ++ '*' :: '/' :: gap ++ rest)) =
        (.blockComment body true, gap ++ rest) := by
      rw [append_assoc, cons_append, cons_append, Piece.next_slash,
        Piece.splitSlash, Piece.splitComment_closed hbody]
      rfl
    exact cons hnext (fun _ => ⟨rfl, rfl⟩) ih

theorem string (text : String) (h : Yields rest ts) :
    Yields (written .string text ++ rest) ((.string, text) :: ts) := by
  have hspells (before : List Char) := Spells.escaped (before ++ ['"']) text.toList
  have hnext : Piece.next '"' (escaped text.toList ++ ['"'] ++ rest) =
      (.quoted (escaped text.toList) true, rest) := by
    rw [append_assoc, singleton_append, Piece.next_quote,
      (hspells []).splitQuoted_closed [] rest]
    rfl
  refine cons (t := [(.string, text)]) hnext (fun before => ⟨?_, ?_⟩) h
  · have hcontent := (hspells []).unescape_eq (.inl rfl) []
    simp_all [Piece.token?]
  · have hescapes := (hspells before).unknownEscapes_eq (.inl rfl)
    simp_all [Piece.problems, Location.behind_concat]

theorem written {kind : Kind} {text : String} (hw : Writes kind text.toList [])
    (hrest : ∀ d ∈ rest.head?, isBlank d) (h : Yields rest ts) :
    Yields (text.toList ++ rest) ((kind, text) :: ts) := by
  obtain ⟨c, cs, hcs⟩ := exists_cons_of_ne_nil hw.ne_nil
  obtain ⟨p, hnext, htext, hp⟩ := Piece.next_of_writes (hcs ▸ hw) hrest
  rw [hcs]
  refine cons (t := [(kind, text)]) hnext (fun _ => ⟨?_, hp.problems _⟩) h
  simp [hp.token, htext, ← hcs]

theorem rendering {text : List Char} (h : Rendering ts text) :
    Yields text (ts ++ [(.endMarker, "")]) := by
  induction h
  case nil => exact nil
  case cons kind text gap ts rest hkind hgap hrendering ih =>
    have hboth : Gap gap ∧ ∀ d ∈ (gap ++ rest).head?, isBlank d := by
      rcases hgap with ⟨hc, hgap⟩ | ⟨rfl, rfl⟩
      · exact ⟨.blank hc hgap, by simpa using hc⟩
      · cases hrendering
        exact ⟨.nil, by simp⟩
    have hrest := behind_gap hboth.1 ih
    by_cases hstring : kind = .string
    case pos => exact hstring ▸ string text hrest
    case neg =>
      rw [Token.written, if_neg hstring]
      exact written (hkind.resolve_left hstring) hboth.2 hrest

end Yields

end Token

theorem Lexed.ofSource_rendering (hlead : Token.Gap lead) (h : Token.Rendering ts text) :
    (ofSource (String.ofList (lead ++ text))).tokens.toList.map (fun t => (t.kind, t.text)) =
      ts ++ [(.endMarker, "")] ∧
    (ofSource (String.ofList (lead ++ text))).problems = #[] := by
  have hread := Token.Yields.behind_gap hlead (.rendering h) []
  rw [← Array.toList_eq_nil_iff, tokens_ofSource, problems_ofSource, String.toList_ofList]
  exact hread

-- A word of each kind, numbers, a sign and a string, with comments between them.
theorem Lexed.ofSource_rendering_comment :
    let comment := [' ', '/', '*', '/', '*', '/']
    let line := ['\n', '/', '/', '"', '\n']
    let text := Token.written .whileKw "while" ++ (comment ++
      (Token.written .identifier "while_1" ++ (line ++
      (Token.written .integer "007" ++ ([' '] ++
      (Token.written .float "1.5f" ++ (comment ++
      (Token.written .power "**" ++ (line ++
      (Token.written .string "\"" ++ ([] ++ [])))))))))))
    (ofSource (String.ofList (['\n'] ++ text))).tokens.toList.map (fun t => (t.kind, t.text)) =
      [(.whileKw, "while"), (.identifier, "while_1"), (.integer, "007"), (.float, "1.5f"),
        (.power, "**"), (.string, "\""), (.endMarker, "")] := by
  have hcomment : Token.Separator (' ' :: '/' :: '*' :: (['/'] ++ '*' :: '/' :: [])) :=
    .intro rfl (.blockComment (by decide) .nil)
  have hline : Token.Separator ('\n' :: '/' :: '/' :: (['"'] ++ '\n' :: [])) :=
    .intro rfl (.lineComment (by decide) .nil)
  have hname : Token.Writes .identifier "while_1".toList [] :=
    .ofWord "while_1" (by decide +kernel) (by decide +kernel)
  have hinteger : Token.Writes .integer "007".toList [] :=
    .integer ⟨⟨by decide +kernel, all_eq_true.mp (by decide +kernel)⟩, .inl rfl, .inl rfl⟩
  have hfloat : Token.Writes .float (['1'] ++ ['.', '5'] ++ ['f']) [] :=
    .float ⟨⟨by decide, all_eq_true.mp rfl⟩, .inr ⟨['5'], rfl, by decide, all_eq_true.mp rfl⟩,
      .inr ⟨.inl rfl, by simp⟩⟩ (by decide)
  exact (ofSource_rendering (.blank rfl .nil)
    (.cons (.inr (.ofSpelling rfl)) (.inl hcomment)
    (.cons (.inr hname) (.inl hline)
    (.cons (.inr hinteger) (.inl (.intro rfl .nil))
    (.cons (.inr hfloat) (.inl hcomment)
    (.cons (.inr (.ofSpelling rfl)) (.inl hline)
    (.cons (.inl rfl) (.inr ⟨rfl, rfl⟩) .nil))))))).1

namespace Token

-- The text at which a piece begins, and what is read behind it.
theorem pieces_split (h : (pieces source).toList = front ++ p :: back) :
    ∃ c cs, source = front.flatMap Piece.text ++ c :: cs ∧ (Piece.next c cs).1 = p ∧
      (pieces (Piece.next c cs).2).toList = back := by
  induction front generalizing source
  case nil =>
    cases source
    case nil => simp [pieces, piecesOnto] at h
    case cons c cs =>
      rw [pieces_cons] at h
      obtain ⟨hp, hback⟩ := List.cons.inj h
      exact ⟨c, cs, rfl, hp, hback⟩
  case cons q front ih =>
    cases source
    case nil => simp [pieces, piecesOnto] at h
    case cons d ds =>
      rw [pieces_cons] at h
      obtain ⟨rfl, hrest⟩ := List.cons.inj h
      obtain ⟨c, cs, hsource, hp, hback⟩ := ih hrest
      refine ⟨c, cs, ?_, hp, hback⟩
      rw [flatMap_cons, append_assoc, ← hsource, Piece.next_tiles]

namespace Piece

variable {body : List Char} {closed : Bool}

theorem splitSign_ne_quoted (c : Char) (cs : List Char) :
    (splitSign c cs).1 ≠ quoted body closed := by
  unfold splitSign
  split <;> simp

theorem next_eq_quoted (h : (next c cs).1 = quoted body closed) :
    c = '"' ∧ splitQuoted [] cs = (body, closed, (next c cs).2) := by
  by_cases hc : c = '"'
  case pos =>
    subst hc
    obtain ⟨rfl, rfl⟩ := quoted.inj h
    exact ⟨rfl, rfl⟩
  case neg =>
    unfold next at h
    rw [if_neg hc] at h
    split at h
    · contradiction
    split at h
    · contradiction
    split at h
    · contradiction
    split at h
    · unfold splitSlash at h
      split at h
      · contradiction
      · contradiction
      · exact absurd h (splitSign_ne_quoted _ _)
    · exact absurd h (splitSign_ne_quoted _ _)

end Piece

theorem Spells.line_feed {before inside content : List Char} {escapes : List LexicalProblem}
    (h : Spells before inside content escapes) (hline : '\n' ∈ inside) :
    ['\\', '\n'] <:+: inside := by
  have hescape (c : Char) (inside : List Char) (hline : '\n' ∈ '\\' :: c :: inside)
      (ih : '\n' ∈ inside → ['\\', '\n'] <:+: inside) :
      ['\\', '\n'] <:+: '\\' :: c :: inside := by
    simp only [mem_cons, Char.reduceEq, false_or] at hline
    rcases hline with rfl | hline
    · exact ⟨[], inside, rfl⟩
    · exact (ih hline).trans (suffix_append ['\\', c] inside).isInfix
  induction h
  case nil => contradiction
  case plain c inside _ _ _ hc _ _ ih =>
    have hline := (mem_cons.mp hline).resolve_left (Ne.symm hc)
    exact (ih hline).trans (suffix_cons c inside).isInfix
  case known ih => exact hescape _ _ hline ih
  case unknown ih => exact hescape _ _ hline ih

-- A string literal leaves its line only where a backslash stands at the end of the line. One that
-- is not closed ends with the text or with a line, and is read as if a quote stood there.
theorem pieces_quoted (h : (pieces source).toList = front ++ .quoted body closed :: back) :
    ('\n' ∈ body ↔ ['\\', '\n'] <:+: body) ∧
    (closed = false → ∃ rest, source = front.flatMap Piece.text ++ '"' :: (body ++ rest) ∧
      (rest = [] ∨ (∃ lines, rest = '\n' :: lines) ∧
        (pieces ('"' :: (body ++ '"' :: rest))).toList = .quoted body true :: back)) := by
  obtain ⟨c, cs, hsource, hp, hback⟩ := pieces_split h
  obtain ⟨rfl, hquoted⟩ := Piece.next_eq_quoted hp
  obtain ⟨inside, lone, content, escapes, hinside, hspells, hend⟩ :=
    Piece.splitQuoted_spells [] cs []
  have htiles := Piece.splitQuoted_tiles [] cs
  generalize (Piece.next '"' cs).2 = rest at *
  simp only [hquoted, reverse_nil, nil_append] at hinside htiles hend
  subst hinside
  constructor
  · refine ⟨fun hline => ?_, fun hline => hline.subset (by simp)⟩
    rcases mem_append.mp hline with hline | hline
    · exact (hspells.line_feed hline).trans (prefix_append inside lone).isInfix
    · have hlone : lone = [] ∨ lone = ['\\'] := by
        cases closed
        case true => exact .inl hend
        case false => exact hend.lone_cases
      rcases hlone with rfl | rfl <;> simp at hline
  · rintro rfl
    refine ⟨rest, by simpa [← htiles] using hsource, ?_⟩
    cases hend
    case atEnd => exact .inl rfl
    case atBackslash => exact .inl rfl
    case atLine lines =>
      refine .inr ⟨⟨lines, rfl⟩, ?_⟩
      rw [pieces_cons, Piece.next_quote, append_nil, hspells.splitQuoted_closed, hback]
      simp

theorem pieces_quoted_unclosed :
    ∃ back rest, (pieces ['"', 'a', '\n', 'b']).toList = .quoted ['a'] false :: back ∧
      (rest = [] ∨ (∃ lines, rest = '\n' :: lines) ∧
        (pieces ('"' :: 'a' :: '"' :: rest)).toList = .quoted ['a'] true :: back) := by
  have h : (pieces ['"', 'a', '\n', 'b']).toList =
      [] ++ .quoted ['a'] false :: (pieces ['\n', 'b']).toList := pieces_cons _ _
  obtain ⟨rest, -, hrest⟩ := (pieces_quoted h).2 rfl
  exact ⟨_, rest, h, hrest⟩

-- The literal takes the line feed along, and what stands on the next line.
theorem tokens_quoted_break : (Lexed.ofSource "\"a\\\nb").tokens.toList =
    [⟨.string, "ab", ⟨1, 1⟩⟩, .ending ⟨2, 2⟩] := by
  decide +kernel

end Token
end Lumen
