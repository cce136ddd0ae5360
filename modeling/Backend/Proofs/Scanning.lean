import Backend.Proofs.Parsing
import Mathlib

/-! # Scanning scalars and tags

What is written for a scalar is scanned as that scalar: a plain one up to the colon behind it or to
the next line that is not indented further, one between quotes up to the quote that ends it, with
every escape read as the character that it stands for. A tag is scanned up to the end of the word.
Text in which no character needs quotes is taken as it stands.
-/

namespace Backend.Markup

namespace Position

/-- The place so many columns further right. -/
def right (p : Position) (n : Nat) : Position := { p with column := p.column + n }

theorem after_of_not_break {c : Char} (h : isBreak c = false) (p : Position) :
    p.after c = p.right 1 := by
  simp [after, h, right]

theorem right_right (p : Position) (m n : Nat) : (p.right m).right n = p.right (m + n) := by
  simp [right, Nat.add_assoc]

end Position

/-! ## Characters -/

/-- A character with which a token can start. -/
structure StartsToken (c : Char) : Prop where
  noBreak : isBreak c = false
  noSpace : c ≠ ' '
  noTab : c ≠ '\t'
  noComment : c ≠ '#'
  noMark : Source.isByteOrderMark c = false

theorem startsToken_mark {c : Char}
    (h : c ∈ ['-', ':', '!', '\'', '"', '[', ']', '\x7b', '\x7d']) : StartsToken c := by
  simp only [List.mem_cons, List.not_mem_nil, or_false] at h
  rcases h with rfl | rfl | rfl | rfl | rfl | rfl | rfl | rfl | rfl <;>
    exact ⟨by decide, by decide, by decide, by decide, by decide⟩

/-- What stands on a line behind the blanks that it starts with. -/
inductive LineText : List Char → Prop where
  | nil : LineText []
  | cons {c : Char} (h : StartsToken c) (cs : List Char) : LineText (c :: cs)

theorem clean_of_isNameChar {c : Char} (h : isNameChar c = true) : Scalar.Clean c := by
  have hrange := toNat_of_isNameChar h
  simp only [Scalar.Clean, Scalar.isSpecial, isBreak, Bool.or_eq_false_iff, Bool.and_eq_false_imp,
    decide_eq_true_eq, decide_eq_false_iff_not]
  omega

/-- No character of a tag stands where a word ends. -/
theorem isTagChar_of_atWordEnd {cs : List Char} (h : atWordEnd cs = true) :
    ∀ c ∈ cs.head?, Property.isTagChar false c = false := by
  intro c hc
  obtain ⟨rest, rfl⟩ := List.head?_eq_some_iff.mp hc
  by_contra htag
  have hrange : 0x20 < c.toNat ∧ c.toNat < 0x7f := by
    simp only [Property.isTagChar, Bool.false_and, Bool.or_false, Bool.not_eq_false,
      Bool.or_eq_true] at htag
    rcases htag with hname | hother
    · exact toNat_of_isNameChar hname
    · have hall : (";/?:@&=+$.%!~*'()".toList.all fun d => 0x20 < d.toNat && d.toNat < 0x7f) =
          true := by decide
      simpa using List.all_eq_true.mp hall c (List.contains_iff_mem.mp hother)
  simp only [atWordEnd, isBlank, isBreak, Bool.or_eq_true, decide_eq_true_eq] at h
  rcases h with (rfl | rfl) | h
  · exact absurd hrange (by decide)
  · exact absurd hrange (by decide)
  · omega

namespace Scalar

theorem isSpecial_tab : isSpecial '\t' = true := by decide

theorem isBlank_eq {c : Char} (h : isSpecial c = false) : isBlank c = isSpace c := by
  have htab : c ≠ '\t' := by
    rintro rfl
    rw [isSpecial_tab] at h
    cases h
  simp [isBlank, isSpace, htab]

theorem first_of_plain {c : Char} {cs : List Char} (h : Plain (c :: cs)) :
    indicators.contains c = false ∧
      ((c = '-' || c = '?' || c = ':') && spaceOrEnd cs) = false ∧
      isSpace c = false := by
  have hfits := h.fits
  simp only [fitsBlock, Bool.and_eq_true, Bool.not_eq_true'] at hfits
  exact ⟨hfits.1.1.1.1.1.1, hfits.1.1.1.1.1.2, hfits.1.1.1.1.2⟩

theorem startsToken_of_plain {c : Char} {cs : List Char} (h : Plain (c :: cs)) : StartsToken c := by
  obtain ⟨hspecial, hbreak⟩ := h.chars c (by simp)
  obtain ⟨hindicator, -, hspace⟩ := first_of_plain h
  refine ⟨hbreak, by simpa [isSpace] using hspace, ?_, ?_, ?_⟩
  · rintro rfl
    rw [isSpecial_tab] at hspecial
    cases hspecial
  · rintro rfl
    exact absurd hindicator (by decide)
  · by_contra hmark
    simp [Source.isByteOrderMark] at hmark
    simp [isSpecial, hmark] at hspecial

theorem lineText_of_plain {cs : List Char} (h : Plain cs) (rest : List Char) :
    LineText (cs ++ rest) := by
  cases cs with
  | nil => cases h.fits
  | cons c cs => exact .cons (startsToken_of_plain h) _

theorem not_isSpecial_of_style {s : String} (h : style s ≠ .double) :
    ∀ c ∈ s.toList, isSpecial c = false := by
  intro c hc
  by_contra hnot
  have hany : s.toList.any isSpecial = true := List.any_eq_true.mpr ⟨c, hc, by simpa using hnot⟩
  exact h (by simp [style, hany])

theorem plain_of_style {s : String} (h : style s = .plain) : Plain s.toList := by
  obtain ⟨-, hbreak, hfits⟩ := fits_of_style h
  have hspecial := not_isSpecial_of_style (s := s) (by simp [h])
  exact ⟨hfits, fun c hc => ⟨hspecial c hc, by simpa using List.any_eq_false.mp hbreak c hc⟩⟩

end Scalar

/-! ## Plain scalars -/

namespace Plain

open Scalar (isBlank_eq)

/-- Blanks that may turn out to stand behind the end of a scalar. -/
def gapOf : List Char → Gap
  | [] => .none
  | cs => .blanks cs

theorem gapOf_addBlank (blanks : List Char) (c : Char) :
    (gapOf blanks).addBlank c = gapOf (blanks ++ [c]) := by
  cases blanks <;> rfl

theorem text_gapOf (blanks : List Char) : (gapOf blanks).text = blanks := by
  cases blanks <;> rfl

theorem hasBreak_gapOf (blanks : List Char) : (gapOf blanks).hasBreak = false := by
  cases blanks <;> rfl

variable {s : Setting}

theorem isEnd_of_not_cut (hflow : s.inFlow = false) {c : Char} {cs : List Char}
    (h : (decide (c = ':') && Scalar.spaceOrEnd cs) = false)
    (hchars : ∀ c ∈ cs, Scalar.Clean c) (suffix : List Char) :
    isEnd s c (cs ++ suffix) = false := by
  cases cs with
  | nil =>
      simp only [Scalar.spaceOrEnd, Bool.and_true, decide_eq_false_iff_not] at h
      simp [isEnd, h, hflow]
  | cons d cs =>
      obtain ⟨hspecial, hbreak⟩ := hchars d (by simp)
      simp only [Scalar.spaceOrEnd, ← isBlank_eq hspecial] at h
      simp [isEnd, atWordEnd, hflow, hbreak, h]

theorem last_of_cons {c : Char} {cs : List Char}
    (h : (c :: cs).getLast?.any Scalar.isSpace = false) :
    ([] ++ cs).getLast?.any Scalar.isSpace = false := by
  cases cs with
  | nil => rfl
  | cons d cs => rwa [List.getLast?_cons_cons] at h

/-- Behind its first character, text that is not cut is read as it stands. -/
theorem scan_text (hflow : s.inFlow = false) {cs : List Char}
    (hchars : ∀ c ∈ cs, Scalar.Clean c) {before : Char}
    (hcut : Scalar.isCut before cs = false) {blanks : List Char}
    (hblanks : ∀ c ∈ blanks, Scalar.isSpace c = true)
    (hbefore : blanks ≠ [] → Scalar.isSpace before = true)
    (hlast : (blanks ++ cs).getLast?.any Scalar.isSpace = false) {p : Position}
    (hindent : s.indent ≤ p.column) (hcolumn : 0 < p.column) (text suffix : List Char) :
    scan s text (gapOf blanks) p (cs ++ suffix) =
      scan s (cs.reverse ++ (blanks.reverse ++ text)) .none (p.right cs.length) suffix := by
  -- Blanks are held back until a character behind them shows that they belong to the text.
  induction cs generalizing before blanks p text with
  | nil =>
      obtain rfl : blanks = [] := by
        by_contra hne
        rw [List.append_nil, List.getLast?_eq_some_getLast hne] at hlast
        simp [hblanks _ (List.getLast_mem hne)] at hlast
      rfl
  | cons c cs ih =>
      obtain ⟨hspecial, hbreak⟩ := hchars c (by simp)
      have hchars' : ∀ c ∈ cs, Scalar.Clean c := fun d hd => hchars d (by simp [hd])
      simp only [Scalar.isCut, Bool.or_eq_false_iff] at hcut
      obtain ⟨⟨hcolon, hcomment⟩, hcut⟩ := hcut
      have hindent' : s.indent ≤ (p.right 1).column := by
        simp only [Position.right]
        omega
      have hcolumn' : 0 < (p.right 1).column := by simp [Position.right]
      rw [List.cons_append, scan, isBlank_eq hspecial, hasBreak_gapOf]
      by_cases hspace : Scalar.isSpace c = true
      · rw [if_pos hspace, if_neg (by simp), gapOf_addBlank, Position.after_of_not_break hbreak,
          ih hchars' hcut (by simpa [or_imp, forall_and, hspace] using hblanks) (by simp [hspace])
            (by simpa using hlast) hindent' hcolumn']
        simp [Position.right_right, Nat.add_comm]
      · have hends : endsBefore s (gapOf blanks) p c (cs ++ suffix) = false := by
          have hle : ¬ (p.column : Int) < s.indent := by omega
          cases blanks with
          | nil => simp [endsBefore, gapOf, hcolumn.ne']
          | cons b blanks =>
              -- Behind blanks a comment could start, but there the text would be cut.
              rw [hbefore (by simp), Bool.and_true, decide_eq_false_iff_not] at hcomment
              simp [endsBefore, hle, hcomment, hcolumn.ne']
        have hend := isEnd_of_not_cut hflow hcolon (fun d hd => hchars' d hd) suffix
        rw [if_neg hspace, if_neg (by simp [hbreak]), if_neg (by simp [hends]),
          if_neg (by simp [hflow]), if_neg (by simp [hend]), text_gapOf,
          Position.after_of_not_break hbreak]
        have hlast' : (c :: cs).getLast?.any Scalar.isSpace = false := by
          rwa [List.getLast?_append_of_ne_nil _ (by simp)] at hlast
        have hrest := @ih hchars' c hcut [] (by simp) (by simp) (last_of_cons hlast') _ hindent'
          hcolumn' (c :: blanks.reverseAux text)
        refine hrest.trans ?_
        simp [Position.right_right, Nat.add_comm, List.reverseAux_eq]

/-- Behind a scalar neither a dash nor a point stands. -/
def Bounds (suffix : List Char) : Prop := ∀ c ∈ suffix.head?, c ≠ '-' ∧ c ≠ '.'

theorem bounds_cons {c : Char} (h : c ≠ '-' ∧ c ≠ '.') (rest : List Char) : Bounds (c :: rest) := by
  rintro _ ⟨⟩
  exact h

theorem not_atDocumentMark {cs suffix : List Char} (h : Scalar.fitsBlock cs = true)
    (hsuffix : Bounds suffix) : atDocumentMark (cs ++ suffix) = false := by
  have hmark (c : Char) (hc : c = '-' ∨ c = '.') (htake : cs.take 3 ≠ [c, c, c]) :
      (cs ++ suffix).take 3 ≠ [c, c, c] := by
    have hhead : suffix.head? ≠ some c := by
      intro hhead
      rcases hc with rfl | rfl
      · exact (hsuffix _ hhead).1 rfl
      · exact (hsuffix _ hhead).2 rfl
    rcases cs with _ | ⟨a, _ | ⟨b, _ | ⟨d, cs⟩⟩⟩
    · cases h
    · cases suffix <;> simp_all
    · cases suffix <;> simp_all
    · simpa using htake
  have htakes : cs.take 3 ≠ ['-', '-', '-'] ∧ cs.take 3 ≠ ['.', '.', '.'] := by
    cases cs with
    | nil => cases h
    | cons c cs =>
        simp only [Scalar.fitsBlock, Bool.and_eq_true, Bool.not_eq_true',
          decide_eq_false_iff_not] at h
        exact ⟨h.1.1.2, h.1.2⟩
  simp [atDocumentMark, hmark _ (.inl rfl) htakes.1, hmark _ (.inr rfl) htakes.2]

theorem scan_plain (hflow : s.inFlow = false) {cs : List Char} (h : Scalar.Plain cs) {p : Position}
    (hindent : s.indent ≤ p.column + 1) {suffix : List Char} (hsuffix : Bounds suffix) :
    scan s [] .none p (cs ++ suffix) = scan s cs.reverse .none (p.right cs.length) suffix := by
  have hmark := not_atDocumentMark h.fits hsuffix
  obtain ⟨hfits, hchars⟩ := h
  cases cs with
  | nil => cases hfits
  | cons c cs =>
      obtain ⟨hspecial, hbreak⟩ := hchars c (by simp)
      simp only [Scalar.fitsBlock, Bool.and_eq_true, Bool.not_eq_true'] at hfits
      obtain ⟨⟨⟨⟨⟨⟨hindicator, hlead⟩, hspace⟩, hlast⟩, -⟩, -⟩, hcut⟩ := hfits
      -- Only the first character can be in column zero, where a document mark would end the text.
      have hends : endsBefore s .none p c (cs ++ suffix) = false := by
        simp only [endsBefore, ne_eq, not_true_eq_false, decide_false, Bool.false_and,
          Bool.false_or]
        rw [← List.cons_append, hmark, Bool.and_false]
      have hcolon : (decide (c = ':') && Scalar.spaceOrEnd cs) = false := by
        by_cases hc : c = ':'
        · simpa [hc] using hlead
        · simp [hc]
      have hend := isEnd_of_not_cut hflow hcolon (fun d hd => hchars d (by simp [hd])) suffix
      rw [List.cons_append, scan, isBlank_eq hspecial, if_neg (by simp [hspace]),
        if_neg (by simp [hbreak]), if_neg (by simp [hends]), if_neg (by simp [hflow]),
        if_neg (by simp [hend]), Position.after_of_not_break hbreak]
      have hrest := @scan_text s hflow cs (fun d hd => hchars d (by simp [hd])) c hcut [] (by simp)
        (by simp) (last_of_cons hlast) (p.right 1) (by simpa [Position.right] using hindent)
        (by simp [Position.right]) [c] suffix
      refine hrest.trans ?_
      simp [Position.right_right, Nat.add_comm]

theorem scan_key (hflow : s.inFlow = false) {rest : List Char} (hrest : atWordEnd rest = true)
    (text : List Char) {p : Position} (hcolumn : p.column ≠ 0) :
    scan s text .none p (':' :: rest) =
      .ok {
        text := text.reverse
        brokeLine := false
        behind := { position := p, rest := ':' :: rest } } := by
  have hends : endsBefore s .none p ':' rest = false := by
    simp [endsBefore, hcolumn]
  rw [scan, if_neg (by decide), if_neg (by decide), if_neg (by simp [hends]),
    if_neg (by simp [hflow]), if_pos (by simp [isEnd, hrest])]
  rfl

/-- A line that is not indented further ends a scalar. -/
theorem scan_line (hflow : s.inFlow = false) {k : Nat} (hk : (k : Int) < s.indent) {cs : List Char}
    (hcs : LineText cs) (text : List Char) (p : Position) :
    scan s text .none p ('\n' :: (List.replicate k ' ' ++ cs)) =
      .ok {
        text := text.reverse
        brokeLine := true
        behind := { position := { line := p.line + 1, column := k }, rest := cs } } := by
  have hblanks (n : Nat) (q : Position) :
      scan s text (.lines (some '\n') []) q (List.replicate n ' ' ++ cs) =
        scan s text (.lines (some '\n') []) (q.right n) cs := by
    induction n generalizing q with
    | zero => rfl
    | succ n ih =>
        have hspace : isBreak ' ' = false := by decide
        rw [List.replicate_succ, List.cons_append, scan, if_pos (by decide), if_neg (by simp),
          Position.after_of_not_break hspace]
        refine (ih _).trans ?_
        rw [Position.right_right, Nat.add_comm]
  rw [scan, if_neg (by decide), if_pos (by decide)]
  refine (hblanks k _).trans ?_
  have hplace : (p.after '\n').right k = { line := p.line + 1, column := k } := by
    simp [Position.after, Position.right, show isBreak '\n' = true by decide]
  rw [hplace]
  cases hcs with
  | nil => rfl
  | @cons c h cs =>
      have hblank : isBlank c = false := by simp [isBlank, h.noSpace, h.noTab]
      rw [scan, if_neg (by simp [hblank]), if_neg (by simp [h.noBreak]),
        if_pos (by simp [endsBefore, hflow, hk])]
      rfl

end Plain

/-! ## Quoted scalars -/

namespace Quotes

open Plain (gapOf gapOf_addBlank text_gapOf)

open Scalar (isBlank_eq)

variable {start p : Position} {text blanks rest : List Char} {gap : Gap} {c : Char}

theorem isBreak_quote : isBreak '\'' = false := by decide

theorem single_close (hcolumn : 0 < p.column) (hrest : rest.head? ≠ some '\'') :
    single start text gap p ('\'' :: rest) =
      .ok ((gap.text.reverseAux text).reverse, { position := p.right 1, rest }) := by
  rw [single.eq_def]
  dsimp only
  rw [if_neg (by decide), if_neg (by decide), if_neg (by simp [hcolumn.ne']), if_pos rfl,
    Position.after_of_not_break isBreak_quote]
  split
  · exact absurd rfl hrest
  · rfl

/-- What stands for a character between single quotes is read as the character. -/
theorem single_char (hspecial : Scalar.isSpecial c = false) (hbreak : isBreak c = false)
    (hspace : Scalar.isSpace c = false) (hcolumn : 0 < p.column) :
    single start text gap p (Scalar.doubleQuote c ++ rest) =
      single start (c :: gap.text.reverseAux text) .none (p.right (Scalar.doubleQuote c).length)
        rest := by
  have hblank : isBlank c = false := by rw [isBlank_eq hspecial, hspace]
  by_cases hc : c = '\''
  · subst hc
    rw [Scalar.doubleQuote, if_pos rfl, List.cons_append, single.eq_def]
    dsimp only
    rw [if_neg (by decide), if_neg (by decide), if_neg (by simp [hcolumn.ne']), if_pos rfl,
      Position.after_of_not_break isBreak_quote, Position.after_of_not_break isBreak_quote,
      Position.right_right]
    rfl
  · rw [Scalar.doubleQuote, if_neg hc, List.singleton_append, single.eq_def]
    dsimp only
    rw [if_neg (by simp [hblank]), if_neg (by simp [hbreak]), if_neg (by simp [hcolumn.ne']),
      if_neg hc, Position.after_of_not_break hbreak]
    rfl

theorem single_space (hspace : Scalar.isSpace c = true) :
    single start text (gapOf blanks) p (Scalar.doubleQuote c ++ rest) =
      single start text (gapOf (blanks ++ [c])) (p.right 1) rest := by
  obtain rfl : c = ' ' := by simpa [Scalar.isSpace] using hspace
  have hquote : Scalar.doubleQuote ' ' = [' '] := by decide
  rw [← gapOf_addBlank, hquote, List.singleton_append, single.eq_def]
  dsimp only
  rw [if_pos (by decide)]
  rfl

theorem single_text {cs : List Char} (hchars : ∀ c ∈ cs, Scalar.Clean c) (hcolumn : 0 < p.column)
    (hrest : rest.head? ≠ some '\'') (start : Position) (text blanks : List Char) :
    single start text (gapOf blanks) p (cs.flatMap Scalar.doubleQuote ++ '\'' :: rest) =
      .ok (text.reverse ++ (blanks ++ cs),
        { position := p.right ((cs.flatMap Scalar.doubleQuote).length + 1), rest }) := by
  induction cs generalizing p text blanks with
  | nil =>
      rw [List.flatMap_nil, List.nil_append, single_close hcolumn hrest, text_gapOf]
      simp [List.reverseAux_eq]
  | cons c cs ih =>
      obtain ⟨hspecial, hbreak⟩ := hchars c (by simp)
      have hchars' : ∀ c ∈ cs, Scalar.Clean c := fun d hd => hchars d (by simp [hd])
      have hcolumn' (n : Nat) : 0 < (p.right n).column :=
        Nat.lt_of_lt_of_le hcolumn (by simp [Position.right])
      rw [List.flatMap_cons, List.append_assoc]
      by_cases hspace : Scalar.isSpace c = true
      · rw [single_space hspace, ih hchars' (hcolumn' _)]
        obtain rfl : c = ' ' := by simpa [Scalar.isSpace] using hspace
        simp [Position.right_right, Scalar.doubleQuote, Nat.add_comm]
      · rw [single_char hspecial hbreak (by simpa using hspace) hcolumn, text_gapOf]
        refine (ih hchars' (hcolumn' _) (c :: blanks.reverseAux text) []).trans ?_
        simp [Position.right_right, List.reverseAux_eq, Nat.add_assoc]

theorem clean_slash : Scalar.Clean '\\' := by decide

theorem hexDigits_two : ∀ n < 256, (Scalar.hexDigits 2 n).length = 2 ∧
    Numeral.value? 16 (Scalar.hexDigits 2 n) = some n ∧
    (Scalar.hexDigits 2 n).all (fun d => Scalar.Clean d) = true := by
  decide +kernel

theorem hexDigits_four : ∀ n ∈ [0xfeff, 0xfffe, 0xffff], (Scalar.hexDigits 4 n).length = 4 ∧
    Numeral.value? 16 (Scalar.hexDigits 4 n) = some n ∧
    (Scalar.hexDigits 4 n).all (fun d => Scalar.Clean d) = true := by
  decide +kernel

/-- What a character is written as between double quotes. -/
inductive Shows : Char → List Char → Prop where
  | itself {c : Char} (hquote : c ≠ '"') (hslash : c ≠ '\\') (hclean : Scalar.Clean c) :
      Shows c [c]
  | char {c e : Char} (h : escape? e = some (.char c.toNat)) (hclean : Scalar.Clean e) :
      Shows c ['\\', e]
  | digits {c e : Char} {digits : List Char} (h : escape? e = some (.digits digits.length))
      (hclean : Scalar.Clean e) (hvalue : Numeral.value? 16 digits = some c.toNat)
      (hdigits : ∀ d ∈ digits, Scalar.Clean d) : Shows c ('\\' :: e :: digits)

theorem Shows.clean {cs : List Char} (h : Shows c cs) : ∀ d ∈ cs, Scalar.Clean d := by
  cases h with
  | itself _ _ hclean => simpa using hclean
  | char _ hclean => simp [clean_slash, hclean]
  | digits _ hclean _ hdigits => simpa [clean_slash, hclean] using hdigits

theorem shows_code {n : Nat} {e : Char} {cs : List Char} (h : escape? e = some (.char n))
    (hclean : Scalar.Clean e) (hcs : c.toNat ≠ n → Shows c cs) :
    Shows c (if c.toNat = n then ['\\', e] else cs) := by
  split
  · next hn => exact .char (hn ▸ h) hclean
  · next hn => exact hcs hn

theorem shows_digits {e : Char} {digits : List Char} {count : Nat}
    (h : escape? e = some (.digits count)) (hclean : Scalar.Clean e)
    (hdigits : digits.length = count ∧ Numeral.value? 16 digits = some c.toNat ∧
      digits.all (fun d => Scalar.Clean d) = true) : Shows c ('\\' :: e :: digits) := by
  obtain ⟨rfl, hvalue, hall⟩ := hdigits
  exact .digits h hclean hvalue (by simpa using hall)

theorem shows_special (h : Scalar.isSpecial c = true) :
    Shows c (if c.toNat < 0x100 then '\\' :: 'x' :: Scalar.hexDigits 2 c.toNat
      else '\\' :: 'u' :: Scalar.hexDigits 4 c.toNat) := by
  split
  · next hlt => exact shows_digits rfl (by decide) (hexDigits_two _ hlt)
  · next hge =>
      -- Above that only the byte order mark and two codes that are no characters are special.
      have hn : c.toNat = 0xfeff ∨ c.toNat = 0xfffe ∨ c.toNat = 0xffff := by
        simp only [Scalar.isSpecial, Bool.or_eq_true, Bool.and_eq_true, decide_eq_true_eq] at h
        omega
      exact shows_digits rfl (by decide) (hexDigits_four c.toNat (by simpa using hn))

theorem shows_escapeChar (c : Char) : Shows c (Scalar.escapeChar c) := by
  unfold Scalar.escapeChar
  dsimp only
  by_cases hquote : c = '"'
  · subst hquote
    exact .char rfl (by decide)
  by_cases hslash : c = '\\'
  · subst hslash
    exact .char rfl (by decide)
  rw [if_neg hquote, if_neg hslash]
  -- The characters with an escape of their own, in the order in which they are tried.
  refine shows_code rfl (by decide) fun h0 => shows_code rfl (by decide) fun h7 =>
    shows_code rfl (by decide) fun h8 => shows_code rfl (by decide) fun h9 =>
    shows_code rfl (by decide) fun h10 => shows_code rfl (by decide) fun h11 =>
    shows_code rfl (by decide) fun h12 => shows_code rfl (by decide) fun h13 =>
    shows_code rfl (by decide) fun hescape => shows_code rfl (by decide) fun hnext =>
    shows_code rfl (by decide) fun hline => shows_code rfl (by decide) fun hparagraph => ?_
  by_cases hspecial : Scalar.isSpecial c = true
  · rw [if_pos hspecial]
    exact shows_special hspecial
  · rw [if_neg hspecial]
    refine .itself hquote hslash ⟨by simpa using hspecial, ?_⟩
    simp only [isBreak, Bool.or_eq_false_iff, decide_eq_false_iff_not]
    exact ⟨⟨⟨⟨h10, h13⟩, hnext⟩, hline⟩, hparagraph⟩

/-- The rest of an escape is skipped. -/
theorem double_escaped {cs : List Char} (h : ∀ c ∈ cs, Scalar.Clean c) :
    double start text gap p cs.length (cs ++ rest) =
      double start text gap (p.right cs.length) 0 rest := by
  induction cs generalizing p with
  | nil => rfl
  | cons c cs ih =>
      rw [List.length_cons, List.cons_append, double, Position.after_of_not_break (h c (by simp)).2,
        ih fun d hd => h d (by simp [hd]), Position.right_right, Nat.add_comm]

/-- What stands for a character between double quotes is read as the character. -/
theorem double_char {cs : List Char} (h : Shows c cs) (hspace : Scalar.isSpace c = false)
    (hcolumn : 0 < p.column) :
    double start text gap p 0 (cs ++ rest) =
      double start (c :: gap.text.reverseAux text) .none (p.right cs.length) 0 rest := by
  cases h with
  | itself hquote hslash hclean =>
      obtain ⟨hspecial, hbreak⟩ := hclean
      have hblank : isBlank c = false := by rw [isBlank_eq hspecial, hspace]
      rw [List.singleton_append, double, if_neg (by simp [hblank]), if_neg (by simp [hbreak]),
        if_neg (by simp [hcolumn.ne']), if_neg hquote, if_neg hslash,
        Position.after_of_not_break hbreak]
      rfl
  | @char e h hclean =>
      rw [List.cons_append, double, if_neg (by decide), if_neg (by decide),
        if_neg (by simp [hcolumn.ne']), if_neg (by decide), if_pos rfl,
        if_neg (by simp [hclean.2]), Position.after_of_not_break clean_slash.2]
      simp only [List.singleton_append, List.head?_cons, Option.bind_some, h, Char.ofNat_toNat]
      have hescape : ∀ d ∈ [e], Scalar.Clean d := by simpa using hclean
      refine (double_escaped hescape).trans ?_
      rw [Position.right_right]
      rfl
  | @digits e ds h hclean hvalue hdigits =>
      rw [List.cons_append, double, if_neg (by decide), if_neg (by decide),
        if_neg (by simp [hcolumn.ne']), if_neg (by decide), if_pos rfl,
        if_neg (by simp [hclean.2]), Position.after_of_not_break clean_slash.2]
      have hcode : code? ds.length (ds ++ rest) = some c.toNat := by
        simp [code?, hvalue]
      have hcharacter : isCharacter c.toNat = true := by
        have hvalid := c.valid
        simp only [UInt32.isValidChar, Nat.isValidChar] at hvalid
        simp only [isCharacter, Char.toNat, Bool.or_eq_true, Bool.and_eq_true, decide_eq_true_eq]
        omega
      simp only [List.cons_append, List.head?_cons, Option.bind_some, h, List.tail_cons, hcode,
        hcharacter, if_true, Char.ofNat_toNat]
      have hescape : ∀ d ∈ e :: ds, Scalar.Clean d := by simpa [hclean] using hdigits
      refine (double_escaped hescape).trans ?_
      rw [Position.right_right]
      simp [Nat.add_comm]

theorem double_space (hspace : Scalar.isSpace c = true) :
    double start text (gapOf blanks) p 0 (Scalar.escapeChar c ++ rest) =
      double start text (gapOf (blanks ++ [c])) (p.right 1) 0 rest := by
  obtain rfl : c = ' ' := by simpa [Scalar.isSpace] using hspace
  have hescape : Scalar.escapeChar ' ' = [' '] := by decide
  rw [← gapOf_addBlank, hescape, List.singleton_append, double, if_pos (by decide)]
  rfl

theorem double_text (cs : List Char) (hcolumn : 0 < p.column) (start : Position)
    (text blanks rest : List Char) :
    double start text (gapOf blanks) p 0 (cs.flatMap Scalar.escapeChar ++ '"' :: rest) =
      .ok (text.reverse ++ (blanks ++ cs),
        { position := p.right ((cs.flatMap Scalar.escapeChar).length + 1), rest }) := by
  induction cs generalizing p text blanks with
  | nil =>
      rw [List.flatMap_nil, List.nil_append, double, if_neg (by decide), if_neg (by decide),
        if_neg (by simp [hcolumn.ne']), if_pos rfl, text_gapOf,
        Position.after_of_not_break (by decide)]
      simp [List.reverseAux_eq]
  | cons c cs ih =>
      have hcolumn' (n : Nat) : 0 < (p.right n).column :=
        Nat.lt_of_lt_of_le hcolumn (by simp [Position.right])
      rw [List.flatMap_cons, List.append_assoc]
      by_cases hspace : Scalar.isSpace c = true
      · rw [double_space hspace, ih (hcolumn' _)]
        obtain rfl : c = ' ' := by simpa [Scalar.isSpace] using hspace
        have hescape : Scalar.escapeChar ' ' = [' '] := by decide
        simp [Position.right_right, hescape, Nat.add_comm]
      · rw [double_char (shows_escapeChar c) (by simpa using hspace) hcolumn, text_gapOf]
        refine (ih (hcolumn' _) (c :: blanks.reverseAux text) []).trans ?_
        simp [Position.right_right, List.reverseAux_eq, Nat.add_assoc]

end Quotes

/-! ## Tags -/

theorem Scan.bind_ok {α β : Type} {x : Scan α} {a : α} {k k' : Cursor} (h : x k = .ok (a, k'))
    (f : α → Scan β) : (x >>= f) k = f a k' := by
  change (x k >>= fun r => f r.1 r.2) = _
  rw [h]
  rfl

theorem Scan.rest_ok {k : Cursor} : Scan.rest k = .ok (k.rest, k) := rfl

theorem Scan.position_ok {k : Cursor} : Scan.position k = .ok (k.position, k) := rfl

theorem Scan.skip_one {p : Position} {c : Char} {rest : List Char} :
    Scan.skip 1 { position := p, rest := c :: rest } =
      .ok ((), { position := p.after c, rest }) := rfl

namespace Cursor

theorem spanFrom_append {f : Char → Bool} {cs suffix : List Char} (h : ∀ c ∈ cs, f c = true)
    (hbreak : ∀ c ∈ cs, isBreak c = false) (hsuffix : ∀ c ∈ suffix.head?, f c = false)
    (p : Position) :
    spanFrom f p (cs ++ suffix) = (cs, { position := p.right cs.length, rest := suffix }) := by
  induction cs generalizing p with
  | nil =>
      cases suffix with
      | nil => rfl
      | cons d suffix => simp [spanFrom, hsuffix d rfl, Position.right]
  | cons c cs ih =>
      rw [List.cons_append, spanFrom, if_pos (h c (by simp)),
        ih (fun d hd => h d (by simp [hd])) (fun d hd => hbreak d (by simp [hd])),
        Position.after_of_not_break (hbreak c (by simp)), Position.right_right]
      simp [Nat.add_comm]

end Cursor

namespace Property

variable {name suffix : List Char} {p : Position}

theorem handle_name (hchars : ∀ c ∈ name, isNameChar c = true)
    (hsuffix : atWordEnd suffix = true) (what : String) (start : Position) :
    handle what start { position := p, rest := '!' :: (name ++ suffix) } =
      .ok ('!' :: name, { position := p.right (name.length + 1), rest := suffix }) := by
  have hspan : Scan.span isNameChar { position := p.right 1, rest := name ++ suffix } =
      .ok (name, { position := p.right (name.length + 1), rest := suffix }) := by
    have hbehind : ∀ c ∈ suffix.head?, isNameChar c = false := by
      intro c hc
      have htag := isTagChar_of_atWordEnd hsuffix c hc
      simp only [isTagChar, Bool.or_eq_false_iff] at htag
      exact htag.1.1
    rw [Scan.span, Cursor.spanFrom_append hchars
      (fun c hc => (clean_of_isNameChar (hchars c hc)).2) hbehind, Position.right_right,
      Nat.add_comm]
  have hhead : suffix.head? ≠ some '!' := by
    intro hhead
    exact absurd (isTagChar_of_atWordEnd hsuffix '!' hhead) (by decide)
  unfold handle
  refine (Scan.bind_ok Scan.rest_ok _).trans ?_
  rw [if_neg (by simp)]
  refine (Scan.bind_ok Scan.skip_one _).trans ?_
  rw [Position.after_of_not_break (by decide)]
  refine (Scan.bind_ok hspan _).trans ?_
  refine (Scan.bind_ok Scan.rest_ok _).trans ?_
  rw [if_neg hhead]
  rfl

theorem tagBytes_wordEnd (hsuffix : atWordEnd suffix = true) (fault : Position → String → Fault) :
    tagBytes false fault 0 p suffix = .ok ([], { position := p, rest := suffix }) := by
  cases suffix with
  | nil => rfl
  | cons c rest =>
      have htag := isTagChar_of_atWordEnd hsuffix c rfl
      have hpercent : c ≠ '%' := by
        rintro rfl
        exact absurd htag (by decide)
      rw [tagBytes]
      · simp [hpercent, htag]
      · simp [hpercent]

theorem toUInt8_ne_zero {c : Char} (h : isNameChar c = true) : c.toUInt8 ≠ 0 := by
  have hrange := toNat_of_isNameChar h
  intro hzero
  have hnat : c.toUInt8.toNat = c.toNat % 256 := rfl
  rw [hzero] at hnat
  change 0 = _ at hnat
  omega

theorem tagRest_name (hchars : ∀ c ∈ name, isNameChar c = true) (hsuffix : atWordEnd suffix = true)
    (what : String) (start : Position) :
    tagRest false what start ('!' :: name) { position := p, rest := suffix } =
      .ok (name.map Char.toUInt8, { position := p, rest := suffix }) := by
  have hbytes : (name.map Char.toUInt8 ++ []).takeWhile (· ≠ 0) = name.map Char.toUInt8 := by
    rw [List.append_nil, List.takeWhile_eq_self_iff]
    simpa using fun c hc => toUInt8_ne_zero (hchars c hc)
  unfold tagRest
  refine (Scan.bind_ok rfl _).trans ?_
  dsimp only
  rw [tagBytes_wordEnd hsuffix]
  refine (Scan.bind_ok rfl _).trans ?_
  change Except.ok (_, _) = _
  exact congrArg (fun bytes => Except.ok (bytes, _)) hbytes

theorem tag_name (hne : name ≠ []) (hchars : ∀ c ∈ name, isNameChar c = true)
    (hsuffix : atWordEnd suffix = true) :
    tag false { position := p, rest := '!' :: (name ++ suffix) } =
      .ok (.tag "!" (name.map Char.toUInt8),
        { position := p.right (name.length + 1), rest := suffix }) := by
  have hcomplete : isComplete ('!' :: name) = false := by
    have hlast : name.getLast hne ≠ '!' := by
      intro hlast
      exact absurd (hchars _ (List.getLast_mem hne)) (by rw [hlast]; decide)
    simp [isComplete, List.getLast?_cons, List.getLast?_eq_some_getLast hne, hlast]
  obtain ⟨c, name, rfl⟩ := List.exists_cons_of_ne_nil hne
  -- Behind the mark a tag could be given in full, between angle brackets.
  have hc : c ≠ '<' := by
    rintro rfl
    exact absurd (hchars '<' (by simp)) (by decide)
  unfold tag
  refine (Scan.bind_ok Scan.position_ok _).trans ?_
  refine (Scan.bind_ok Scan.rest_ok _).trans ?_
  generalize hsecond : (Cursor.mk p ('!' :: (c :: name ++ suffix))).rest.tail.head? = second
  split
  · exact absurd (Option.some.inj hsecond) hc
  · refine (Scan.bind_ok (handle_name hchars hsuffix _ _) _).trans ?_
    rw [if_neg (by simp [hcomplete])]
    refine (Scan.bind_ok (tagRest_name hchars hsuffix _ _) _).trans ?_
    rw [if_neg (by simp), pure_bind]
    refine (Scan.bind_ok Scan.rest_ok _).trans ?_
    simp only [hsuffix]
    rfl

end Property

/-! ## Source text -/

namespace Source

theorem isAllowed_of_not_isSpecial {c : Char} (h : Scalar.isSpecial c = false) :
    isAllowed c = true := by
  simp only [Scalar.isSpecial, isAllowed, Bool.or_eq_false_iff, Bool.and_eq_false_imp,
    decide_eq_true_eq, decide_eq_false_iff_not, Bool.or_eq_true, Bool.and_eq_true] at *
  omega

theorem portions_of_allowed {cs : List Char} (h : ∀ c ∈ cs, isAllowed c = true)
    (offset size : Nat) (read portion : List Char) :
    portions offset size read portion cs = ((portion ++ read).reverse ++ cs, none) := by
  induction cs generalizing offset size read portion with
  | nil => simp [portions]
  | cons c cs ih =>
      have hc : isAllowed c = true := h c (by simp)
      rw [portions, if_pos hc, if_pos hc]
      -- The character fills a portion or not, and is read in the same order either way.
      split
      · rw [ih fun d hd => h d (by simp [hd])]
        simp
      · rw [ih fun d hd => h d (by simp [hd])]
        simp

theorem unifyBreaks_of_not_isSpecial {cs : List Char} (h : ∀ c ∈ cs, Scalar.isSpecial c = false)
    (read : List Char) : unifyBreaks read cs = read.reverse ++ cs := by
  induction cs generalizing read with
  | nil => simp [unifyBreaks]
  | cons c cs ih =>
      have hc := h c (by simp)
      have hreturn : c ≠ '\r' := by
        rintro rfl
        exact absurd hc (by decide)
      have hnext : c.toNat ≠ 0x85 := by
        intro hn
        simp [Scalar.isSpecial, hn] at hc
      rw [unifyBreaks]
      · rw [if_neg (by simp [hreturn, hnext]), ih fun d hd => h d (by simp [hd])]
        simp
      · intro rest hcr
        exact absurd hcr hreturn

/-- A text without characters that only quotes can show. -/
def Readable (text : String) : Prop := ∀ c ∈ text.toList, Scalar.isSpecial c = false

instance : DecidablePred Readable := fun text => List.decidableBAll _ text.toList

@[simp] theorem readable_append {s t : String} : Readable (s ++ t) ↔ Readable s ∧ Readable t := by
  simp [Readable, or_imp, forall_and]

/-- A readable text is read as it stands. -/
theorem read_eq {text : String} (h : Readable text) :
    read text = (text.toList, none) := by
  rw [read, portions_of_allowed fun c hc => isAllowed_of_not_isSpecial (h c hc)]
  simp [unifyBreaks_of_not_isSpecial h]

end Source

end Backend.Markup
