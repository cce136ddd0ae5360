import Backend.Proofs.Lexing
import Mathlib

/-! # From the text of a block document to its tokens

A written value is read as its tokens, whatever is around it: by induction on the value, from a
place behind the mark before it the lexer comes to the line behind it. There the collections that
have started in the value are still open, and the tokens for their ends are what is missing.
-/

namespace Backend.Markup

/-! ## Scalars as they are written -/

namespace Scalar

theorem shift_of_not_break {indent : Nat} {write : Char → List Char} {cs : List Char}
    (h : ∀ c ∈ cs, isBreak c = false) : shift indent write false cs = cs.flatMap write := by
  induction cs with
  | nil => rfl
  | cons c cs ih =>
      rw [shift, if_neg (by simp [h c (by simp)]), ih fun d hd => h d (by simp [hd])]
      simp

theorem mem_shift_of_break {indent : Nat} {write : Char → List Char} {cs : List Char} {c : Char}
    (h : c ∈ cs) (hc : isBreak c = true) (fresh : Bool) : c ∈ shift indent write fresh cs := by
  induction cs generalizing fresh with
  | nil => cases h
  | cons d cs ih =>
      rcases List.mem_cons.mp h with rfl | h
      · rw [shift, if_pos hc]
        exact List.mem_cons_self
      · rw [shift]
        split
        · exact List.mem_cons_of_mem _ (ih h true)
        · exact List.mem_append_right _ (ih h false)

theorem getLast?_any_isBreak {cs : List Char} (h : ∀ c ∈ cs, isBreak c = false) :
    cs.getLast?.any isBreak = false := by
  rw [Option.any_eq_false]
  intro c hc
  simp [h c (List.mem_of_getLast? hc)]

theorem toList_endLine {text : String} (h : ∀ c ∈ text.toList, isBreak c = false) :
    (endLine text).toList = text.toList ++ ['\n'] := by
  rw [endLine, getLast?_any_isBreak h, if_neg (by simp), String.toList_append]
  rfl

/-- The forms of a text on one line. -/
inductive Form (s : String) : List Char → Prop where
  | plain (hstyle : style s = .plain) (h : Plain s.toList) : Form s s.toList
  | single (hstyle : style s = .single) (h : ∀ c ∈ s.toList, Clean c) :
      Form s ('\'' :: (s.toList.flatMap doubleQuote ++ ['\'']))
  | double (hstyle : style s = .double) : Form s ('"' :: (s.toList.flatMap escapeChar ++ ['"']))

theorem form_render {s : String} (h : OneLine s) (indent : Nat) :
    Form s (render indent s).toList := by
  unfold OneLine render at h
  unfold render
  cases hstyle : style s with
  | plain => exact .plain hstyle (plain_of_style hstyle)
  | single =>
      simp only [hstyle, String.toList_ofList] at h ⊢
      have hbreak : ∀ c ∈ s.toList, isBreak c = false := by
        intro c hc
        by_contra hnot
        rw [Bool.not_eq_false] at hnot
        have hmem : c ∈ shift 0 doubleQuote false s.toList := mem_shift_of_break hc hnot false
        exact absurd (h c (by simp [hmem])) (by simp [hnot])
      rw [getLast?_any_isBreak hbreak, shift_of_not_break hbreak]
      simpa using Form.single hstyle fun c hc =>
        ⟨not_isSpecial_of_style (by simp [hstyle]) c hc, hbreak c hc⟩
  | double =>
      simp only [String.toList_ofList]
      exact .double hstyle
  | lines =>
      -- Behind the mark for lines the first of them starts with a break.
      simp only [hstyle, String.toList_ofList] at h
      exact absurd (h '\n' (by simp)) (by decide)

theorem Form.clean {s : String} {cs : List Char} (h : Form s cs) : ∀ c ∈ cs, Clean c := by
  have hquotes : Clean '\'' ∧ Clean '"' := by decide
  cases h with
  | plain _ h => exact h.chars
  | single _ h =>
      have hquote (c : Char) (hc : Clean c) : ∀ d ∈ doubleQuote c, Clean d := by
        unfold doubleQuote
        split
        · simp [hquotes.1]
        · simpa using hc
      intro c hc
      simp only [List.mem_cons, List.mem_append, List.mem_flatMap, List.not_mem_nil, or_false] at hc
      rcases hc with rfl | ⟨d, hd, hc⟩ | rfl
      · exact hquotes.1
      · exact hquote d (h d hd) c hc
      · exact hquotes.1
  | double =>
      intro c hc
      simp only [List.mem_cons, List.mem_append, List.mem_flatMap, List.not_mem_nil, or_false] at hc
      rcases hc with rfl | ⟨d, -, hc⟩ | rfl
      · exact hquotes.2
      · exact (Quotes.shows_escapeChar d).clean c hc
      · exact hquotes.2

theorem Form.lineText {s : String} {cs : List Char} (h : Form s cs) (rest : List Char) :
    LineText (cs ++ rest) := by
  cases h with
  | plain _ h => exact lineText_of_plain h rest
  | single => exact .cons (startsToken_mark (by simp)) _
  | double => exact .cons (startsToken_mark (by simp)) _

end Scalar

/-! ## Values behind a mark -/

namespace Spot

open Backend.Markup.Lex

variable {b : Spot} {q : Position} {allowed : Bool} {rest : List Char} {k : Nat}

theorem At.text {s : String} {cs : List Char} (hform : Scalar.Form s cs)
    (h : b.At q allowed (cs ++ '\n' :: (List.replicate k ' ' ++ rest)) [] b.indent b.indents)
    (hrest : LineText rest) (hk : k ≤ b.indent) (hindent : b.indent < q.column) :
    b.Gives [.scalar s (Scalar.style s = .plain)] k rest := by
  have hcolumn : 0 < (q.right 1).column := by simp [Position.right]
  cases hform with
  | plain hstyle hplain =>
      have hgives := h.plain hplain hrest hk hindent
      simpa [hstyle] using hgives
  | single hstyle hchars =>
      rw [List.cons_append] at h
      have hline : ('\n' :: (List.replicate k ' ' ++ rest)).head? ≠ some '\'' := by simp
      have hread := Quotes.single_text hchars hcolumn hline q [] []
      have hmark : ('\'', quotedScalar fun start p cs => Quotes.single start [] .none p cs) ∈
          marks false := by simp [marks]
      rw [← List.singleton_append, ← List.append_assoc] at hread
      have hgives := h.quoted hindent Quotes.isBreak_quote hmark hread hrest
      simpa [hstyle] using hgives
  | double hstyle =>
      rw [List.cons_append] at h
      have hread := Quotes.double_text s.toList hcolumn q [] []
        ('\n' :: (List.replicate k ' ' ++ rest))
      have hmark : ('"', quotedScalar fun start p cs => Quotes.double start [] .none p 0 cs) ∈
          marks false := by simp [marks]
      rw [← List.singleton_append, ← List.append_assoc] at hread
      have hgives := h.quoted hindent (by decide) hmark hread hrest
      simpa [hstyle] using hgives

/-- A value may come next, on this line or on the next one. -/
structure Awaits (b : Spot) (inline : Bool) (listColumn column : Nat) : Prop where
  idle : Idle b.key
  place : b.indent < b.position.column
  list : b.indent ≤ listColumn
  other : b.indent < column
  inline : inline = true →
    b.allowed = true ∧ b.position.column + 1 = listColumn ∧ listColumn = column

variable {inline : Bool} {listColumn column : Nat} {cs : List Char} {outer : List Int}

theorem Awaits.at_word (h : b.Awaits inline listColumn column)
    (hrest : b.rest = ' ' :: cs) (hcs : LineText cs) :
    b.At (b.position.right 1) b.allowed cs [] b.indent b.indents where
  idle := h.idle
  skip := by
    rw [hrest]
    exact (Lex.skipTo_blanks b.allowed b.position 1 cs).trans (Lex.skipTo_line hcs _ _)
  stack := rfl
  inner := by simp
  outer := by
    have hplace := h.place
    simp [Position.right]
    omega

theorem Awaits.at_line (h : b.Awaits inline listColumn column) {c : Nat}
    (hc : b.indent ≤ c) (hrest : b.rest = '\n' :: (List.replicate c ' ' ++ cs))
    (hcs : LineText cs) :
    b.At { line := b.position.line + 1, column := c } true cs [] b.indent b.indents where
  idle := h.idle
  skip := by rw [hrest, skipTo_nextLine hcs]
  stack := rfl
  inner := by simp
  outer := hc

/-- Behind the last entry of a collection that has ended the next entry comes. -/
theorem Ends.at_entry {c : Nat} {kinds : List TokenKind} (h : b.Ends c rest c outer kinds) :
    ∃ line inner, b.At { line, column := c } true rest inner c outer ∧
      b.kinds ++ List.replicate inner.length .blockEnd = kinds := by
  obtain ⟨line, hskip⟩ := h.skip
  obtain ⟨inner, hstack, hinner, hkinds⟩ := h.stack
  exact ⟨line, inner, ⟨h.idle, hskip, hstack, hinner, Int.le_refl _⟩, hkinds⟩

theorem Behind.ends {c : Nat} {kinds : List TokenKind} (h : b.Behind cs c outer kinds)
    {more : List TokenKind} (hgives : b.Gives more k rest) :
    ∃ b' : Spot, b.lexer.Moves b'.lexer ∧ b'.Ends k rest c outer (kinds ++ more) := by
  rw [← h.indent, ← h.indents, ← h.kinds]
  exact hgives

theorem toList_blanks (c : Nat) : (Column.blanks c).toList = List.replicate c ' ' := by
  simp [Column.blanks]

theorem within_self (c : Nat) (outer : List Int) : within c c outer = outer := by
  simp [within]

theorem openingKinds_self (kind : TokenKind) (c : Nat) : openingKinds kind c c = [] := by
  simp [openingKinds]

/-- A collection on lines of its own starts where its first entry does. -/
theorem Awaits.at_lead (h : b.Awaits inline listColumn column) {c : Nat}
    (hc : b.indent ≤ c) (hinline : inline = true → c = listColumn) {lead : String}
    (hlead : lead = if inline then " " else "\n" ++ Column.blanks c)
    (hrest : b.rest = lead.toList ++ cs) (hcs : LineText cs) :
    ∃ line, b.At { line, column := c } true cs [] b.indent b.indents := by
  cases inline with
  | false =>
      refine ⟨_, h.at_line hc ?_ hcs⟩
      simp [hrest, hlead, toList_blanks]
  | true =>
      obtain ⟨hallowed, hcolumn, -⟩ := h.inline rfl
      have hword : b.rest = ' ' :: cs := by simp [hrest, hlead]
      have hat := h.at_word hword hcs
      refine ⟨b.position.line, ?_⟩
      rw [hallowed] at hat
      have hposition : b.position.right 1 = { line := b.position.line, column := c } := by
        rw [hinline rfl, ← hcolumn]
        rfl
      rwa [hposition] at hat

/-- The collection that starts last has the value's column. -/
theorem Ends.gives {b' : Spot} {c : Nat} {more : List TokenKind} (kind : TokenKind)
    (hmoves : b.lexer.Moves b'.lexer)
    (h : b'.Ends k rest c (within c b.indent b.indents)
      (b.kinds ++ openingKinds kind c b.indent ++ more)) (hc : b.indent ≤ c) :
    b.Gives (if b.indent = c then more else kind :: (more ++ [.blockEnd])) k rest := by
  refine ⟨b', hmoves, h.idle, h.skip, ?_⟩
  obtain ⟨inner, hstack, hinner, hkinds⟩ := h.stack
  -- Where a collection is flush with the one around it no token has said that it starts.
  by_cases hflush : b.indent = c
  · rw [hflush, within_self] at hstack
    rw [if_pos hflush]
    refine ⟨inner, by rw [hflush, hstack], by rwa [hflush], ?_⟩
    rw [hkinds, hflush, openingKinds_self, List.append_nil]
  · have hless : b.indent < c := by omega
    refine ⟨inner ++ [(c : Int)], ?_, ?_, ?_⟩
    · rw [hstack]
      simp [within, hless]
    · intro i hi
      rcases List.mem_append.mp hi with hi | hi
      · exact hless.trans (hinner i hi)
      · rw [List.mem_singleton.mp hi]
        exact hless
    · rw [if_neg hflush, List.length_append, List.length_singleton, List.replicate_succ',
        ← List.append_assoc, hkinds]
      simp [openingKinds, hless]

end Spot

namespace Node

open Spot

/-- From the text of a value the lexer reads the tokens of the value. -/
def Reads (n : Node) : Prop :=
  ∀ ⦃b : Spot⦄ ⦃inline : Bool⦄ ⦃listColumn column k : Nat⦄ ⦃rest : List Char⦄,
    b.Awaits inline listColumn column → (k : Int) ≤ b.indent → LineText rest →
    b.rest = (n.write inline listColumn column).toList ++ (List.replicate k ' ' ++ rest) →
    b.Gives (n.kinds (b.indent = listColumn)) k rest

variable {n : Node} {b : Spot} {inline : Bool} {listColumn column k : Nat} {cs rest : List Char}

theorem reads_word {s : String} (hs : Scalar.Plain s.toList) : Reads (.word s) := by
  intro b inline listColumn column k rest h hk hrest htext
  have htext' : b.rest = ' ' :: (s.toList ++ '\n' :: (List.replicate k ' ' ++ rest)) := by
    rw [htext, write]
    simp
  have hplace := h.place
  have hgives := (h.at_word htext' (Scalar.lineText_of_plain hs _)).plain hs hrest hk
    (by simp [Position.right]; omega)
  simpa [kinds] using hgives

theorem reads_text {s : String} (hs : Scalar.OneLine s) : Reads (.text s) := by
  intro b inline listColumn column k rest h hk hrest htext
  have hform := Scalar.form_render hs column
  have htext' : b.rest = ' ' :: ((Scalar.render column s).toList ++
      '\n' :: (List.replicate k ' ' ++ rest)) := by
    rw [htext, write, String.toList_append, Scalar.toList_endLine fun c hc => (hform.clean c hc).2]
    simp
  have hplace := h.place
  exact (h.at_word htext' (hform.lineText _)).text hform hrest hk (by simp [Position.right]; omega)

theorem reads_empty {c d : Char} {start stop : TokenKind}
    (hwrite : ∀ inline listColumn column,
      (n.write inline listColumn column).toList = [' ', c, d, '\n'])
    (hkinds : ∀ flush, n.kinds flush = [start, stop])
    (hstart : (c, Lex.openFlow start) ∈ Lex.marks false)
    (hstop : (d, Lex.closeFlow stop) ∈ Lex.marks true) (hc : StartsToken c) (hd : StartsToken d) :
    Reads n := by
  intro b inline listColumn column k rest h _ hrest htext
  have hplace := h.place
  rw [hwrite] at htext
  rw [hkinds]
  exact (h.at_word htext (.cons hc _)).flow (by simp [Position.right]; omega) hstart hstop hd hrest

/-! ## Collections -/

/-- The text of a value starts with the end of a word. -/
theorem atWordEnd_write (n : Node) (inline : Bool) (listColumn column : Nat) (rest : List Char) :
    atWordEnd ((n.write inline listColumn column).toList ++ rest) = true := by
  rcases n with s | s | (_ | ⟨x, items⟩) | (_ | ⟨field, fields⟩) | ⟨tag, x⟩
  · simp [write, atWordEnd, isBlank]
  · simp [write, atWordEnd, isBlank]
  · simp [write, atWordEnd, isBlank]
  · cases inline <;> simp [write, writeItems, atWordEnd, isBlank]
    decide
  · simp [write, atWordEnd, isBlank]
  · cases inline <;> simp [write, writeFields, atWordEnd, isBlank]
    decide
  · simp [write, atWordEnd, isBlank]

theorem toList_writeItems (lead : String) (c : Nat) (x : Node) (items : List Node) :
    (writeItems lead c (x :: items)).toList =
      lead.toList ++ (writeItems "" c (x :: items)).toList := by
  simp [writeItems]

theorem lineText_writeItems (c : Nat) (x : Node) (items : List Node) (rest : List Char) :
    LineText ((writeItems "" c (x :: items)).toList ++ rest) := by
  simp only [writeItems, String.toList_append]
  exact .cons (startsToken_mark (c := '-') (by simp)) _

variable {q : Position} {inner outer : List Int} {indent : Int}

theorem gives_item {x : Node} (h : Reads x)
    (hat : b.At q true ('-' :: ((x.write true (q.column + 2) (q.column + 2)).toList ++
      (List.replicate k ' ' ++ rest))) inner indent outer)
    (hk : k ≤ q.column) (hrest : LineText rest) :
    ∃ b' : Spot, b.lexer.Moves b'.lexer ∧ b'.Ends k rest q.column (within q.column indent outer)
      (b.kinds ++ List.replicate inner.length .blockEnd ++
        openingKinds .listStart q.column indent ++ (.item :: x.kinds false)) := by
  obtain ⟨b₁, hnext, hposition, hallowed, hbehind⟩ := hat.item (atWordEnd_write _ _ _ _ _)
  have hindent := hbehind.indent
  have hawaits : b₁.Awaits true (q.column + 2) (q.column + 2) := {
    idle := hbehind.idle
    place := by have hplace := hbehind.place; omega
    list := by omega
    other := by omega
    inline := fun _ => ⟨hallowed, by rw [hposition]; rfl, rfl⟩ }
  obtain ⟨b₂, hmoves, hends⟩ := hbehind.ends (h hawaits (by omega) hrest hbehind.rest)
  refine ⟨b₂, .head hnext hmoves, ?_⟩
  have hflush : decide (b₁.indent = ((q.column + 2 : Nat) : Int)) = false :=
    decide_eq_false (by omega)
  rw [hflush] at hends
  simpa using hends

theorem gives_items {x : Node} {items : List Node} (h : ∀ y ∈ x :: items, Reads y)
    (hat : b.At q true ((writeItems "" q.column (x :: items)).toList ++
      (List.replicate k ' ' ++ rest)) inner indent outer)
    (hk : k ≤ q.column) (hrest : LineText rest) :
    ∃ b' : Spot, b.lexer.Moves b'.lexer ∧ b'.Ends k rest q.column (within q.column indent outer)
      (b.kinds ++ List.replicate inner.length .blockEnd ++
        openingKinds .listStart q.column indent ++ kindsItems (x :: items)) := by
  induction items generalizing x b q inner indent outer with
  | nil =>
      obtain ⟨b', hmoves, hends⟩ :=
        gives_item (h x (by simp)) (by simpa [writeItems] using hat) hk hrest
      exact ⟨b', hmoves, by simpa [kindsItems] using hends⟩
  | cons y items ih =>
      have hfirst : b.At q true ('-' :: ((x.write true (q.column + 2) (q.column + 2)).toList ++
          (List.replicate q.column ' ' ++ ((writeItems "" q.column (y :: items)).toList ++
            (List.replicate k ' ' ++ rest))))) inner indent outer := by
        rw [writeItems] at hat
        simpa [toList_writeItems (Column.blanks q.column), toList_blanks] using hat
      obtain ⟨b₁, hmoves₁, hends₁⟩ := gives_item (h x (by simp)) hfirst (Nat.le_refl _)
        (lineText_writeItems _ _ _ _)
      -- What the first item has left open ends in the step for the next one.
      obtain ⟨line, inner₁, hat₁, hkinds₁⟩ := hends₁.at_entry
      obtain ⟨b₂, hmoves₂, hends₂⟩ := ih (fun z hz => h z (by simp [hz])) hat₁ hk
      refine ⟨b₂, hmoves₁.trans hmoves₂, ?_⟩
      rw [within_self, openingKinds_self, hkinds₁] at hends₂
      simpa [kindsItems] using hends₂

theorem gives_field {name : String} {x : Node} (h : Reads x) (hname : Scalar.NamesField name)
    (hat : b.At q true (name.toList ++ ':' :: ((x.write false q.column (q.column + 2)).toList ++
      (List.replicate k ' ' ++ rest))) inner indent outer)
    (hk : k ≤ q.column) (hrest : LineText rest) :
    ∃ b' : Spot, b.lexer.Moves b'.lexer ∧ b'.Ends k rest q.column (within q.column indent outer)
      (b.kinds ++ List.replicate inner.length .blockEnd ++
        openingKinds .mapStart q.column indent ++
        (.key :: .scalar name true :: .value :: x.kinds true)) := by
  obtain ⟨b₁, hmoves₁, hbehind⟩ := hat.field hname (atWordEnd_write _ _ _ _ _)
  have hindent := hbehind.indent
  have hawaits : b₁.Awaits false q.column (q.column + 2) := {
    idle := hbehind.idle
    place := by have hplace := hbehind.place; omega
    list := by omega
    other := by omega
    inline := by simp }
  obtain ⟨b₂, hmoves, hends⟩ := hbehind.ends (h hawaits (by omega) hrest hbehind.rest)
  refine ⟨b₂, hmoves₁.trans hmoves, ?_⟩
  have hflush : decide (b₁.indent = (q.column : Int)) = true := decide_eq_true hindent
  rw [hflush] at hends
  simpa using hends

theorem toList_writeFields (lead : String) (c : Nat) (field : String × Node)
    (fields : List (String × Node)) :
    (writeFields lead c (field :: fields)).toList =
      lead.toList ++ (writeFields "" c (field :: fields)).toList := by
  simp [writeFields]

theorem toList_writeFields_cons {name : String} (hname : Scalar.NamesField name) (c : Nat)
    (x : Node) (fields : List (String × Node)) :
    (writeFields "" c ((name, x) :: fields)).toList =
      name.toList ++ ':' :: ((x.write false c (c + 2)).toList ++
        (writeFields (Column.blanks c) c fields).toList) := by
  have hrender : Scalar.render (c + 2) name = name := by simp [Scalar.render, hname.plain]
  simp [writeFields, hname.isKey, hrender]

theorem lineText_writeFields {field : String × Node} (hname : Scalar.NamesField field.1) (c : Nat)
    (fields : List (String × Node)) (rest : List Char) :
    LineText ((writeFields "" c (field :: fields)).toList ++ rest) := by
  rw [toList_writeFields_cons hname, List.append_assoc]
  exact Scalar.lineText_of_plain (Scalar.plain_of_style hname.plain) _

theorem gives_fields {field : String × Node} {fields : List (String × Node)}
    (h : ∀ field' ∈ field :: fields, Reads field'.2)
    (hnames : ∀ field' ∈ field :: fields, Scalar.NamesField field'.1)
    (hat : b.At q true ((writeFields "" q.column (field :: fields)).toList ++
      (List.replicate k ' ' ++ rest)) inner indent outer)
    (hk : k ≤ q.column) (hrest : LineText rest) :
    ∃ b' : Spot, b.lexer.Moves b'.lexer ∧ b'.Ends k rest q.column (within q.column indent outer)
      (b.kinds ++ List.replicate inner.length .blockEnd ++
        openingKinds .mapStart q.column indent ++ kindsFields (field :: fields)) := by
  induction fields generalizing field b q inner indent outer with
  | nil =>
      obtain ⟨name, x⟩ := field
      have hname : Scalar.NamesField name := hnames (name, x) (by simp)
      rw [toList_writeFields_cons hname] at hat
      obtain ⟨b', hmoves, hends⟩ :=
        gives_field (h (name, x) (by simp)) hname (by simpa [writeFields] using hat) hk hrest
      exact ⟨b', hmoves, by simpa [kindsFields, hname.plain] using hends⟩
  | cons next fields ih =>
      obtain ⟨name, x⟩ := field
      have hname : Scalar.NamesField name := hnames (name, x) (by simp)
      have hnext : Scalar.NamesField next.1 := hnames next (by simp)
      rw [toList_writeFields_cons hname, toList_writeFields (Column.blanks q.column),
        toList_blanks] at hat
      obtain ⟨b₁, hmoves₁, hends₁⟩ :=
        gives_field (h (name, x) (by simp)) hname (by simpa using hat) (Nat.le_refl _)
          (lineText_writeFields hnext _ _ _)
      obtain ⟨line, inner₁, hat₁, hkinds₁⟩ := hends₁.at_entry
      obtain ⟨b₂, hmoves₂, hends₂⟩ := ih (fun z hz => h z (by simp [hz]))
        (fun z hz => hnames z (by simp [hz])) hat₁ hk
      refine ⟨b₂, hmoves₁.trans hmoves₂, ?_⟩
      rw [within_self, openingKinds_self, hkinds₁] at hends₂
      simpa [kindsFields, hname.plain] using hends₂

theorem reads_list {x : Node} {items : List Node} (h : ∀ y ∈ x :: items, Reads y) :
    Reads (.list (x :: items)) := by
  intro b inline listColumn column k rest hawaits hk hrest htext
  have hwrite : (Node.list (x :: items)).write inline listColumn column =
      writeItems (if inline then " " else "\n" ++ Column.blanks listColumn) listColumn
        (x :: items) := by
    rw [write]
    simp
  rw [hwrite, toList_writeItems, List.append_assoc] at htext
  obtain ⟨line, hat⟩ := hawaits.at_lead hawaits.list (fun _ => rfl) rfl htext
    (lineText_writeItems _ _ _ _)
  have hlist := hawaits.list
  obtain ⟨b', hmoves, hends⟩ := gives_items h hat (by simp; omega) hrest
  have hgives := Ends.gives .listStart hmoves (by simpa using hends) hawaits.list
  simpa [kinds] using hgives

theorem reads_map {field : String × Node} {fields : List (String × Node)}
    (h : ∀ field' ∈ field :: fields, Reads field'.2)
    (hnames : ∀ field' ∈ field :: fields, Scalar.NamesField field'.1) :
    Reads (.map (field :: fields)) := by
  intro b inline listColumn column k rest hawaits hk hrest htext
  have hwrite : (Node.map (field :: fields)).write inline listColumn column =
      writeFields (if inline then " " else "\n" ++ Column.blanks column) column
        (field :: fields) := by
    rw [write]
    simp
  rw [hwrite, toList_writeFields, List.append_assoc] at htext
  have hother := hawaits.other
  obtain ⟨line, hat⟩ := hawaits.at_lead hother.le (fun hinline => (hawaits.inline hinline).2.2.symm)
    rfl htext (lineText_writeFields (hnames field (by simp)) _ _ _)
  obtain ⟨b', hmoves, hends⟩ := gives_fields h hnames hat (by simp; omega) hrest
  have hgives := Ends.gives .mapStart hmoves (by simpa using hends) hother.le
  simpa [kinds, hother.ne] using hgives

theorem reads_tagged {name : String} {x : Node} (hname : AlternativeName name) (h : Reads x) :
    Reads (.tagged name x) := by
  intro b inline listColumn column k rest hawaits hk hrest htext
  have hplace := hawaits.place
  have htext' : b.rest = ' ' :: '!' :: (name.toList ++ ((x.write false listColumn column).toList ++
      (List.replicate k ' ' ++ rest))) := by
    rw [htext, write]
    simp
  obtain ⟨b₁, hnext, hidle, hafter, hrest₁, hindent, hindents, hkinds⟩ :=
    (hawaits.at_word htext' (.cons (startsToken_mark (by simp)) _)).tag
      (by simp [Position.right]; omega) hname
      (atWordEnd_write x false listColumn column (List.replicate k ' ' ++ rest))
  -- The tag has taken the place on this line, so a collection behind it starts on the next one.
  have hawaits₁ : b₁.Awaits false listColumn column := {
    idle := hidle
    place := by
      simp [Position.right] at hafter
      omega
    list := hindent ▸ hawaits.list
    other := hindent ▸ hawaits.other
    inline := by simp }
  obtain ⟨b', hmoves, hends⟩ := h hawaits₁ (hindent ▸ hk) hrest hrest₁
  refine ⟨b', .head hnext hmoves, ?_⟩
  rw [hindent, hindents, hkinds] at hends
  simpa [kinds] using hends

theorem reads_of_legible (h : n.Legible) : Reads n := by
  induction h with
  | word hs => exact reads_word hs
  | text hs => exact reads_text hs
  | @list items _ ih =>
      cases items with
      | nil =>
          exact reads_empty (c := '[') (d := ']') (fun _ _ _ => by simp [write]) (fun _ => rfl)
            (by simp [Lex.marks]) (by simp [Lex.marks]) (startsToken_mark (by simp))
            (startsToken_mark (by simp))
      | cons x items => exact reads_list ih
  | @map fields hnames _ ih =>
      cases fields with
      | nil =>
          exact reads_empty (c := '\x7b') (d := '\x7d') (fun _ _ _ => by simp [write])
            (fun _ => rfl) (by simp [Lex.marks]) (by simp [Lex.marks])
            (startsToken_mark (by simp)) (startsToken_mark (by simp))
      | cons field fields => exact reads_map ih hnames
  | tagged hname _ _ ih => exact reads_tagged hname ih

/-! ## Whole documents -/

open Source (Readable readable_append)

theorem readable_blanks (c : Nat) : Readable (Column.blanks c) := by
  simp [Readable, Column.blanks, show Scalar.isSpecial ' ' = false by decide]

theorem readable_lead (inline : Bool) (c : Nat) :
    Readable (if inline then " " else "\n" ++ Column.blanks c) := by
  cases inline with
  | true => exact show Readable " " by decide
  | false => exact readable_append.mpr ⟨by decide, readable_blanks c⟩

theorem readable_writeItems {items : List Node}
    (h : ∀ x ∈ items, ∀ inline listColumn column, Readable (x.write inline listColumn column))
    {lead : String} (hlead : Readable lead) (c : Nat) : Readable (writeItems lead c items) := by
  induction items generalizing lead with
  | nil =>
      rw [writeItems]
      decide
  | cons x items ih =>
      simp only [writeItems, readable_append]
      exact ⟨⟨⟨hlead, by decide⟩, h x (by simp) _ _ _⟩,
        ih (fun y hy => h y (by simp [hy])) (readable_blanks c)⟩

theorem readable_writeFields {fields : List (String × Node)}
    (hnames : ∀ field ∈ fields, Scalar.NamesField field.1)
    (h : ∀ field ∈ fields, ∀ inline listColumn column,
      Readable (field.2.write inline listColumn column))
    {lead : String} (hlead : Readable lead) (c : Nat) : Readable (writeFields lead c fields) := by
  induction fields generalizing lead with
  | nil =>
      rw [writeFields]
      decide
  | cons field fields ih =>
      obtain ⟨name, x⟩ := field
      have hname : Scalar.NamesField name := hnames (name, x) (by simp)
      have hrender : Scalar.render (c + 2) name = name := by simp [Scalar.render, hname.plain]
      simp only [writeFields, hname.isKey, hrender, if_true, readable_append]
      refine ⟨⟨hlead, ⟨⟨fun d hd => ?_, by decide⟩, h (name, x) (by simp) _ _ _⟩⟩,
        ih (fun y hy => hnames y (by simp [hy])) (fun y hy => h y (by simp [hy]))
          (readable_blanks c)⟩
      exact ((Scalar.plain_of_style hname.plain).chars d hd).1

theorem readable_write {n : Node} (h : n.Legible) (inline : Bool) (listColumn column : Nat) :
    Readable (n.write inline listColumn column) := by
  induction h generalizing inline listColumn column with
  | word hs =>
      simp only [write, readable_append]
      exact ⟨⟨by decide, fun c hc => (hs.chars c hc).1⟩, by decide⟩
  | @text s hs =>
      have hform := Scalar.form_render hs column
      simp only [write, readable_append]
      refine ⟨by decide, ?_⟩
      rw [Readable, Scalar.toList_endLine fun c hc => (hform.clean c hc).2]
      intro c hc
      rcases List.mem_append.mp hc with hc | hc
      · exact (hform.clean c hc).1
      · rw [List.mem_singleton.mp hc]
        decide
  | @list items _ ih =>
      cases items with
      | nil =>
          rw [write]
          decide
      | cons x items =>
          rw [write]
          · exact readable_writeItems ih (readable_lead inline listColumn) listColumn
          · simp
  | @map fields hnames _ ih =>
      cases fields with
      | nil =>
          rw [write]
          decide
      | cons field fields =>
          rw [write]
          · exact readable_writeFields hnames ih (readable_lead inline column) column
          · simp
  | @tagged name x hname _ _ ih =>
      simp only [write, readable_append]
      exact ⟨⟨by decide, fun c hc => (clean_of_isNameChar (hname.chars c hc)).1⟩, ih _ _ _⟩

/-- The lexer as it comes to the first entry of a map. -/
theorem at_start {field : String × Node} (hname : Scalar.NamesField field.1)
    (fields : List (String × Node)) :
    At ⟨{}, (writeFields "" 0 (field :: fields)).toList, #[], -1, [], none, true⟩ {} true
      ((writeFields "" 0 (field :: fields)).toList ++ (List.replicate 0 ' ' ++ [])) [] (-1) [] where
  idle := by simp [Lex.Idle]
  skip := by simpa using Lex.skipTo_line (lineText_writeFields hname 0 fields []) true {}
  stack := rfl
  inner := by simp
  outer := by simp

/-- From the text of a map the tokens of the map are read. -/
theorem tokens_render {field : String × Node} {fields : List (String × Node)}
    (h : Legible (.map (field :: fields))) :
    ∃ ts, tokens (Node.map (field :: fields)).render = (ts, none) ∧
      ts.map Token.kind = (Node.map (field :: fields)).kinds false ++ [.streamEnd] := by
  cases h with
  | map hnames hlegible =>
      have hreadable : Readable (Node.map (field :: fields)).render :=
        readable_writeFields hnames (fun field hfield => readable_write (hlegible field hfield))
          (by decide) 0
      obtain ⟨b, hmoves, hends⟩ := gives_fields
        (fun field hfield => reads_of_legible (hlegible field hfield)) hnames
        (at_start (hnames field (by simp)) fields) (Nat.le_refl _) .nil
      obtain ⟨ts, hkinds, hrun⟩ := hends.run_eq
      refine ⟨ts, ?_, ?_⟩
      · rw [tokens, Source.read_eq hreadable]
        exact hmoves.run_eq hrun _ _ (Nat.lt_succ_self _)
      · simpa [kinds, openingKinds, Spot.kinds] using hkinds

end Node

end Backend.Markup
