import Backend.Proofs.Scanning
import Mathlib

/-! # Steps of the lexer

Outside of brackets the lexer is known by its place, its tokens, the columns of the collections
around it and the key that may have started. From there each mark and each scalar takes one step,
which first ends the collections that are further right. The steps for an item, a field, a tag and
a scalar say where the lexer stands then, and which tokens it has added.
-/

namespace Backend.Markup

namespace Lex

variable {α β : Type} {s s' : Lexer}

theorem bind_ok {x : Lex α} {a : α} (h : x s = .ok a s') (f : α → Lex β) :
    (x >>= f) s = f a s' := by
  change EStateM.bind x f s = _
  rw [EStateM.bind, h]

theorem get_ok : (get : Lex Lexer) s = .ok s s := rfl

theorem modify_ok (f : Lexer → Lexer) : (modify f : Lex Unit) s = .ok () (f s) := rfl

theorem need_ok (h : s.beyond = none) (count : Nat) : need count s = .ok () s := by
  unfold need
  rw [bind_ok get_ok, h]
  rfl

theorem mapM_ok {f : α → Lex β} {P : β → Prop} {xs : List α}
    (h : ∀ x ∈ xs, ∃ y, P y ∧ f x s = .ok y s) {γ : Type} (g : List β → Lex γ) :
    ∃ ys, ys.length = xs.length ∧ (∀ y ∈ ys, P y) ∧ (xs.mapM f >>= g) s = g ys s := by
  induction xs generalizing g with
  | nil => exact ⟨[], rfl, by simp, rfl⟩
  | cons x xs ih =>
      obtain ⟨y, hy, hx⟩ := h x (by simp)
      obtain ⟨ys, hlength, hys, hxs⟩ := ih (fun z hz => h z (by simp [hz])) fun ys => g (y :: ys)
      refine ⟨y :: ys, by simp [hlength], by simpa [hy] using hys, ?_⟩
      rw [List.mapM_cons, bind_assoc, bind_ok hx, bind_assoc]
      exact hxs

/-- The possible key may be given up. -/
def Idle (key : Option PossibleKey) : Prop := ∀ k ∈ key, k.required = false

theorem dropStaleKeys_idle (h : ∀ key ∈ s.keys, Idle key) :
    ∃ keys, keys.length = s.keys.length ∧ (∀ key ∈ keys, Idle key) ∧
      dropStaleKeys s = .ok () { s with keys } := by
  unfold dropStaleKeys
  refine mapM_ok (fun key hkey => ?_) fun keys => set { s with keys }
  cases key with
  | none => exact ⟨none, h none hkey, rfl⟩
  | some k =>
      have hk : k.required = false := h _ hkey k rfl
      dsimp only
      split
      · rw [if_neg (by simp [hk])]
        exact ⟨none, by simp [Idle], rfl⟩
      · exact ⟨some k, h _ hkey, rfl⟩

theorem dropStaleKeys_fresh {k : PossibleKey} (h : s.keys = [some k])
    (hfresh : ¬ (k.position.line < s.cursor.position.line ∨
      k.position.column + 1024 < s.cursor.position.column)) : dropStaleKeys s = .ok () s := by
  unfold dropStaleKeys
  rw [bind_ok get_ok, h, List.mapM_cons, List.mapM_nil]
  simp only [Bool.or_eq_true, decide_eq_true_eq, hfresh, if_false]
  change EStateM.Result.ok () { s with keys := [some k] } = _
  rw [← h]

/-- A token for the end of a collection. -/
def blockEnd (p : Position) : Token := { kind := .blockEnd, start := p, stop := p }

/-- Tokens with those for the ends of so many collections behind them. -/
def closed (q : Position) : Nat → Array Token → Array Token
  | 0, ts => ts
  | count + 1, ts => closed q count (ts.push (blockEnd q))

theorem toList_closed (q : Position) (count : Nat) (ts : Array Token) :
    (closed q count ts).toList = ts.toList ++ List.replicate count (blockEnd q) := by
  induction count generalizing ts with
  | zero => simp [closed]
  | succ count ih => simp [closed, ih, List.replicate_succ]

theorem unindentFrom_stay {column : Int} (h : s.indent ≤ column) (q : Position)
    (indents : List Int) : unindentFrom column q indents s = .ok () s := by
  cases indents with
  | nil => rfl
  | cons outer rest =>
      rw [unindentFrom, bind_ok get_ok, if_neg (Int.not_lt.mpr h)]
      rfl

theorem unindentFrom_close {column : Int} (h : column < s.indent) (q : Position) (outer : Int)
    (rest : List Int) :
    unindentFrom column q (outer :: rest) s =
      unindentFrom column q rest
        { s with tokens := s.tokens.push (blockEnd q), indent := outer, indents := rest } := by
  rw [unindentFrom, bind_ok get_ok, if_pos h]
  rfl

theorem dropKey_some {k : PossibleKey} (h : s.key? = some k) (hk : k.required = false) :
    dropKey s = .ok () (s.setKey none) := by
  unfold dropKey
  rw [bind_ok get_ok, h]
  dsimp only
  rw [hk]
  rfl

theorem indentTo_further {q : Position} (hflow : s.inFlow = false) (h : s.indent < q.column)
    (number : Nat) (kind : TokenKind) :
    indentTo q number kind s =
      insert number kind q { s with indents := s.indent :: s.indents, indent := q.column } := by
  unfold indentTo
  rw [bind_ok get_ok, if_pos (by simp [hflow, h])]
  rfl

theorem indentTo_same {q : Position} (h : ¬ s.indent < q.column) (number : Nat)
    (kind : TokenKind) : indentTo q number kind s = .ok () s := by
  unfold indentTo
  rw [bind_ok get_ok, if_neg (by simp [h])]
  rfl

theorem skipTo_line {cs : List Char} (h : LineText cs) (allowed : Bool) (p : Position) :
    skipTo false allowed false p cs = (allowed, { position := p, rest := cs }) := by
  cases h with
  | nil => rfl
  | cons h cs =>
      simp [skipTo, h.noBreak, h.noComment, h.noSpace, h.noTab, h.noMark]

theorem skipTo_blanks (allowed : Bool) (p : Position) (n : Nat) (cs : List Char) :
    skipTo false allowed false p (List.replicate n ' ' ++ cs) =
      skipTo false allowed false (p.right n) cs := by
  induction n generalizing p with
  | zero => rfl
  | succ n ih =>
      have hspace : isBreak ' ' = false := by decide
      rw [List.replicate_succ, List.cons_append, skipTo, if_neg (by simp [hspace]),
        if_neg (by decide), if_pos (by simp), Position.after_of_not_break hspace, ih,
        Position.right_right, Nat.add_comm 1 n]

theorem skipTo_break (allowed : Bool) (p : Position) (cs : List Char) :
    skipTo false allowed false p ('\n' :: cs) =
      skipTo false true false { line := p.line + 1 } cs := by
  rw [skipTo, if_pos (by decide), Bool.not_false, Bool.or_true]
  rfl

theorem length_skipTo_le (inFlow allowed inComment : Bool) (p : Position) (cs : List Char) :
    (skipTo inFlow allowed inComment p cs).2.rest.length ≤ cs.length := by
  fun_induction skipTo inFlow allowed inComment p cs with
  | case1 => exact Nat.le_refl _
  | case2 _ _ _ _ _ _ ih | case3 _ _ _ _ _ _ _ ih | case4 _ _ _ _ _ _ _ _ ih =>
      exact Nat.le_succ_of_le ih
  | case5 => exact Nat.le_refl _

/-- The marks that stand for the same token whatever follows them. -/
def marks (inFlow : Bool) : List (Char × Lex Unit) :=
  [('[', openFlow .flowListStart), (']', closeFlow .flowListEnd),
    ('\x7b', openFlow .flowMapStart), ('\x7d', closeFlow .flowMapEnd),
    ('!', keyLike (Property.tag inFlow)),
    ('\'', quotedScalar fun start p cs => Quotes.single start [] .none p cs),
    ('"', quotedScalar fun start p cs => Quotes.double start [] .none p 0 cs)]

theorem token_mark {s s' : Lexer} {c : Char} {rest : List Char} {x : Lex Unit}
    (hrest : s.cursor.rest = c :: rest) (hx : (c, x) ∈ marks s.inFlow) (hs : x s = .ok () s') :
    token s = .ok false s' := by
  unfold token
  rw [bind_ok get_ok, hrest]
  simp only [marks, List.mem_cons, Prod.mk.injEq, List.not_mem_nil, or_false] at hx
  rcases hx with ⟨rfl, rfl⟩ | ⟨rfl, rfl⟩ | ⟨rfl, rfl⟩ | ⟨rfl, rfl⟩ | ⟨rfl, rfl⟩ | ⟨rfl, rfl⟩ |
    ⟨rfl, rfl⟩
  all_goals
    simp only [atDocumentMark, List.take_succ_cons, List.cons.injEq, Char.reduceEq, false_and,
      decide_false, Bool.or_false, Bool.and_false, Bool.false_and, Bool.false_eq_true, if_false,
      if_true]
    exact (bind_ok hs _).trans rfl

end Lex

namespace Lexer

/-- With one step the lexer goes on, and takes a character. -/
def Next (s s' : Lexer) : Prop :=
  (∃ s₀, Lex.dropStaleKeys s = .ok () s₀ ∧ Lex.step s₀ = .ok false s') ∧
    s'.cursor.rest.length < s.cursor.rest.length

/-- With some steps the lexer goes on. -/
abbrev Moves : Lexer → Lexer → Prop := Relation.ReflTransGen Next

variable {s s' : Lexer}

/-- There is fuel for all steps. -/
theorem Moves.run_eq (h : Moves s s') {result : List Token × Option Fault}
    (hlast : ∀ fuel settled, s'.cursor.rest.length < fuel → run fuel settled s' = result)
    (fuel settled : Nat) (hfuel : s.cursor.rest.length < fuel) : run fuel settled s = result := by
  induction h using Relation.ReflTransGen.head_induction_on generalizing fuel settled with
  | refl => exact hlast fuel settled hfuel
  | head hnext _ ih =>
      obtain ⟨⟨s₀, hdrop, hstep⟩, hless⟩ := hnext
      cases fuel with
      | zero => exact absurd hfuel (Nat.not_lt_zero _)
      | succ fuel =>
          rw [run, hdrop]
          simp only [hstep]
          -- The step has taken a character, so less fuel is enough for what is left.
          exact ih fuel _ (by omega)

end Lexer

/-! ## Places outside of brackets -/

/-- A lexer outside of brackets, in a text that can be read to its end. -/
structure Spot where
  position : Position
  rest : List Char
  tokens : Array Token
  indent : Int
  indents : List Int
  key : Option PossibleKey := none
  allowed : Bool := true

namespace Spot

def lexer (b : Spot) : Lexer where
  cursor := { position := b.position, rest := b.rest }
  tokens := b.tokens
  indent := b.indent
  indents := b.indents
  keys := [b.key]
  keyAllowed := b.allowed

open Backend.Markup.Lex

variable {p q : Position} {cs rest : List Char} {ts later : Array Token} {indent : Int}
  {indents : List Int} {key : Option PossibleKey} {allowed : Bool} {c : Char}

theorem dropStaleKeys_lexer (h : Idle key) :
    ∃ key', Idle key' ∧ dropStaleKeys (lexer ⟨p, cs, ts, indent, indents, key, allowed⟩) =
      .ok () (lexer ⟨p, cs, ts, indent, indents, key', allowed⟩) := by
  obtain ⟨keys, hlength, hkeys, hdrop⟩ := @Lex.dropStaleKeys_idle
    (lexer ⟨p, cs, ts, indent, indents, key, allowed⟩) (by simpa [lexer] using h)
  obtain ⟨key', rfl⟩ := List.length_eq_one_iff.mp hlength
  exact ⟨key', hkeys key' (by simp), hdrop⟩

theorem unindentFrom_lexer {column : Int} {inner outer : List Int} {last : Int}
    (hstack : indent :: indents = inner ++ last :: outer) (hinner : ∀ i ∈ inner, column < i)
    (hlast : last ≤ column) (q : Position) :
    unindentFrom column q indents (lexer ⟨p, cs, ts, indent, indents, key, allowed⟩) =
      .ok () (lexer ⟨p, cs, closed q inner.length ts, last, outer, key, allowed⟩) := by
  induction inner generalizing indent indents ts with
  | nil =>
      obtain ⟨rfl, rfl⟩ := List.cons.inj hstack
      exact unindentFrom_stay hlast q _
  | cons i inner ih =>
      obtain ⟨rfl, hrest⟩ := List.cons.inj hstack
      -- Behind a collection that ends there is always one more, the last of which stays open.
      obtain ⟨next, rest, rfl⟩ : ∃ next rest, indents = next :: rest := by
        cases inner <;> exact ⟨_, _, hrest⟩
      exact (unindentFrom_close (hinner indent (by simp)) q next rest).trans
        (ih hrest fun i hi => hinner i (by simp [hi]))

theorem unindentTo_lexer {column : Int} {inner outer : List Int} {last : Int}
    (hstack : indent :: indents = inner ++ last :: outer) (hinner : ∀ i ∈ inner, column < i)
    (hlast : last ≤ column) :
    unindentTo column (lexer ⟨p, cs, ts, indent, indents, key, allowed⟩) =
      .ok () (lexer ⟨p, cs, closed p inner.length ts, last, outer, key, allowed⟩) :=
  unindentFrom_lexer hstack hinner hlast p

theorem step_of_token {allowed' : Bool} {key' : Option PossibleKey}
    (hskip : skipTo false allowed false p cs = (allowed', { position := q, rest }))
    (hdrop : dropStaleKeys (lexer ⟨q, rest, ts, indent, indents, key, allowed'⟩) =
      .ok () (lexer ⟨q, rest, ts, indent, indents, key', allowed'⟩))
    {inner outer : List Int} {last : Int}
    (hstack : indent :: indents = inner ++ last :: outer)
    (hinner : ∀ i ∈ inner, (q.column : Int) < i) (hlast : last ≤ q.column) {stop : Bool}
    {s' : Lexer}
    (htoken : token (lexer ⟨q, rest, closed q inner.length ts, last, outer, key', allowed'⟩) =
      .ok stop s') (hbeyond : s'.beyond = none) :
    step (lexer ⟨p, cs, ts, indent, indents, key, allowed⟩) = .ok stop s' := by
  have hskipped : skipToToken (lexer ⟨p, cs, ts, indent, indents, key, allowed⟩) =
      .ok () (lexer ⟨q, rest, ts, indent, indents, key, allowed'⟩) := by
    change EStateM.Result.ok () { lexer ⟨p, cs, ts, indent, indents, key, allowed⟩ with
      keyAllowed := (skipTo false allowed false p cs).1
      cursor := (skipTo false allowed false p cs).2 } = _
    rw [hskip]
    rfl
  unfold step
  rw [bind_ok hskipped, bind_ok (need_ok rfl 1), bind_ok hdrop, bind_ok get_ok]
  refine (bind_ok (unindentTo_lexer hstack hinner hlast) _).trans ?_
  rw [bind_ok (need_ok rfl 4), bind_ok htoken, bind_ok (need_ok hbeyond 1)]
  rfl

theorem dropKey_lexer (h : Idle key) :
    dropKey (lexer ⟨p, cs, ts, indent, indents, key, allowed⟩) =
      .ok () (lexer ⟨p, cs, ts, indent, indents, none, allowed⟩) := by
  cases key with
  | none => rfl
  | some k => exact dropKey_some rfl (h k rfl)

/-- The key that is remembered where one may start. -/
def saved (p : Position) (number : Nat) (indent : Int) (key : Option PossibleKey) (allowed : Bool) :
    Option PossibleKey :=
  if allowed then some { required := indent = p.column, number, position := p } else key

theorem idle_saved (h : Idle key) (hindent : indent < p.column) (number : Nat) :
    Idle (saved p number indent key allowed) := by
  cases allowed with
  | false => exact h
  | true =>
      rintro k ⟨⟩
      exact decide_eq_false (by omega)

theorem saveKey_lexer (h : Idle key) :
    saveKey (lexer ⟨p, cs, ts, indent, indents, key, allowed⟩) =
      .ok () (lexer ⟨p, cs, ts, indent, indents, saved p ts.size indent key allowed,
        allowed⟩) := by
  unfold saveKey
  cases allowed with
  | false => rfl
  | true =>
      refine (bind_ok get_ok _).trans ?_
      refine (bind_ok (dropKey_lexer h) _).trans ?_
      rfl

theorem insert_lexer (kind : TokenKind) :
    insert ts.size kind q (lexer ⟨p, cs, ts ++ later, indent, indents, key, allowed⟩) =
      .ok () (lexer ⟨p, cs, ts.push ⟨kind, q, q⟩ ++ later, indent, indents, key, allowed⟩) := by
  change EStateM.Result.ok () _ = _
  simp [lexer, Array.extract_append]

/-- The columns of the collections around a place, when one more may start there. -/
def within (column : Nat) (indent : Int) (indents : List Int) : List Int :=
  if indent < column then indent :: indents else indents

/-- The token for the start of a collection, when one starts. -/
def opening (kind : TokenKind) (q : Position) (indent : Int) : Array Token :=
  if indent < q.column then #[⟨kind, q, q⟩] else #[]

theorem indentTo_lexer (hindent : indent ≤ q.column) (kind : TokenKind) :
    indentTo q ts.size kind (lexer ⟨p, cs, ts ++ later, indent, indents, key, allowed⟩) =
      .ok () (lexer ⟨p, cs, ts ++ opening kind q indent ++ later, q.column,
        within q.column indent indents, key, allowed⟩) := by
  by_cases h : indent < q.column
  · refine (indentTo_further rfl h _ kind).trans ?_
    refine (@insert_lexer p q cs ts later q.column (indent :: indents) key allowed kind).trans ?_
    simp [opening, within, h]
  · obtain rfl : indent = q.column := by omega
    refine (indentTo_same h _ kind).trans ?_
    simp [opening, within]

theorem item_lexer (hkey : Idle key) (h : indent ≤ p.column) :
    item (lexer ⟨p, c :: rest, ts, indent, indents, key, true⟩) =
      .ok () (lexer ⟨p.after c, rest,
        (ts ++ opening .listStart p indent).push ⟨.item, p, p.after c⟩, p.column,
        within p.column indent indents, none, true⟩) := by
  have hindent := @indentTo_lexer p p (c :: rest) ts #[] indent indents key true h .listStart
  simp only [Array.append_empty] at hindent
  unfold item
  change (indentTo p ts.size .listStart >>= fun _ => dropKey >>= fun _ => allowKey true >>= fun _ =>
    addMark .item 1) _ = _
  rw [bind_ok hindent, bind_ok (dropKey_lexer hkey)]
  rfl

theorem value_lexer {k : PossibleKey} {t : Token} (hnumber : k.number = ts.size)
    (hindent : indent ≤ k.position.column) :
    value (lexer ⟨p, c :: rest, ts.push t, indent, indents, some k, allowed⟩) =
      .ok () (lexer ⟨p.after c, rest, (((ts ++ opening .mapStart k.position indent).push
          ⟨.key, k.position, k.position⟩).push t).push ⟨.value, p, p.after c⟩,
        k.position.column, within k.position.column indent indents, none, false⟩) := by
  have hkey := @insert_lexer p k.position (c :: rest) ts #[t] indent indents (some k) allowed .key
  have hstart := @indentTo_lexer p k.position (c :: rest) ts
    #[⟨.key, k.position, k.position⟩, t] indent indents (some k) allowed hindent .mapStart
  have hpair (us : Array Token) :
      us ++ #[⟨.key, k.position, k.position⟩, t] =
        (us.push ⟨.key, k.position, k.position⟩).push t := by
    rw [Array.push_eq_append, Array.push_eq_append, Array.append_assoc]
    rfl
  -- Both tokens go in front of the name, in whose place the key was counted.
  rw [← hnumber, ← Array.push_eq_append, ← Array.push_eq_append] at hkey
  rw [← hnumber, hpair, hpair] at hstart
  unfold value
  change (insert k.number .key k.position >>= fun _ => indentTo k.position k.number .mapStart >>=
    fun _ => modify (Lexer.setKey none) >>= fun _ => allowKey false >>= fun _ => addMark .value 1)
      _ = _
  rw [bind_ok hkey, bind_ok hstart]
  rfl

theorem keyLike_lexer (h : Idle key) {x : Scan TokenKind} {kind : TokenKind} {behind : Cursor}
    (hx : x { position := p, rest := cs } = .ok (kind, behind)) :
    keyLike x (lexer ⟨p, cs, ts, indent, indents, key, allowed⟩) =
      .ok () (lexer ⟨behind.position, behind.rest, ts.push ⟨kind, p, behind.position⟩, indent,
        indents, saved p ts.size indent key allowed, false⟩) := by
  unfold keyLike
  rw [bind_ok (saveKey_lexer h)]
  have hscan : scan x (lexer ⟨p, cs, ts, indent, indents, saved p ts.size indent key allowed,
      false⟩) = .ok kind (lexer ⟨behind.position, behind.rest, ts, indent, indents,
        saved p ts.size indent key allowed, false⟩) := by
    unfold Lex.scan
    refine (bind_ok get_ok _).trans ?_
    simp only [lexer, hx]
    rfl
  refine (bind_ok hscan _).trans ?_
  rfl

theorem plainScalar_lexer (h : Idle key) {result : Plain.Result}
    (hscan : Plain.scan { inFlow := false, indent := indent + 1, start := p } [] .none p cs =
      .ok result) :
    plainScalar (lexer ⟨p, cs, ts, indent, indents, key, allowed⟩) =
      .ok () (lexer ⟨result.behind.position, result.behind.rest,
        ts.push ⟨.scalar (String.ofList result.text) true, p, result.behind.position⟩, indent,
        indents, saved p ts.size indent key allowed, result.brokeLine⟩) := by
  unfold plainScalar
  refine (bind_ok get_ok _).trans ?_
  refine (bind_ok (saveKey_lexer h) _).trans ?_
  refine (bind_ok (modify_ok _) _).trans ?_
  have hinFlow : (lexer ⟨p, cs, ts, indent, indents, key, allowed⟩).inFlow = false := rfl
  simp only [hinFlow]
  simp only [lexer, hscan]
  cases result.brokeLine with
  | false => rfl
  | true => rfl

/-! ## Tokens -/

/-- Behind blanks and the ends of collections some text comes next. -/
structure At (b : Spot) (q : Position) (allowed : Bool) (rest : List Char) (inner : List Int)
    (indent : Int) (outer : List Int) : Prop where
  idle : Idle b.key
  skip : skipTo false b.allowed false b.position b.rest = (allowed, { position := q, rest })
  stack : b.indent :: b.indents = inner ++ indent :: outer
  inner : ∀ i ∈ inner, (q.column : Int) < i
  outer : indent ≤ q.column

variable {b : Spot} {inner outer : List Int} {k : Nat}

theorem At.next (h : b.At q allowed (c :: rest) inner indent outer) :
    ∃ key', Idle key' ∧ ∀ s',
      token (lexer ⟨q, c :: rest, closed q inner.length b.tokens, indent, outer, key', allowed⟩) =
        .ok false s' → s'.beyond = none → s'.cursor.rest.length ≤ rest.length →
      b.lexer.Next s' := by
  obtain ⟨p, cs, ts, indent', indents, key, allowed'⟩ := b
  -- A key can be given up before the step, and again behind the blanks that the step skips.
  obtain ⟨key₁, hkey₁, hdrop⟩ := @dropStaleKeys_lexer p cs ts indent' indents key allowed' h.idle
  obtain ⟨key₂, hkey₂, hdrop'⟩ :=
    @dropStaleKeys_lexer q (c :: rest) ts indent' indents key₁ allowed hkey₁
  refine ⟨key₂, hkey₂, fun s' htoken hbeyond hless => ⟨⟨_, hdrop, ?_⟩, ?_⟩⟩
  · exact step_of_token h.skip hdrop' h.stack h.inner h.outer htoken hbeyond
  · have hle := length_skipTo_le false allowed' false p cs
    rw [h.skip] at hle
    exact Nat.lt_of_le_of_lt hless hle

theorem token_item (h : atWordEnd rest = true) {s' : Lexer}
    (hitem : item (lexer ⟨q, '-' :: rest, ts, indent, outer, key, allowed⟩) = .ok () s') :
    token (lexer ⟨q, '-' :: rest, ts, indent, outer, key, allowed⟩) = .ok false s' := by
  have hmark : atDocumentMark ('-' :: rest) = false := by
    cases rest with
    | nil => rfl
    | cons d rest =>
        have hd : d ≠ '-' := by
          rintro rfl
          cases h
        simp [atDocumentMark, hd]
  unfold token
  refine (bind_ok get_ok _).trans ?_
  simp only [lexer, hmark, h, Char.reduceEq, decide_false, decide_true, Bool.and_false,
    Bool.and_true, Bool.or_true, Bool.false_and, Bool.false_eq_true, if_false, if_true]
  refine (bind_ok hitem _).trans ?_
  rfl

theorem token_value (h : atWordEnd rest = true) {s' : Lexer}
    (hvalue : value (lexer ⟨q, ':' :: rest, ts, indent, outer, key, allowed⟩) = .ok () s') :
    token (lexer ⟨q, ':' :: rest, ts, indent, outer, key, allowed⟩) = .ok false s' := by
  have hmark : atDocumentMark (':' :: rest) = false := by
    simp [atDocumentMark]
  unfold token
  refine (bind_ok get_ok _).trans ?_
  simp only [lexer, hmark, h, Char.reduceEq, decide_false, decide_true, Bool.and_false,
    Bool.and_true, Bool.or_true, Bool.false_and, Bool.false_eq_true, if_false, if_true]
  refine (bind_ok hvalue _).trans ?_
  rfl

theorem isIndicator_of_not_contains (h : Scalar.indicators.contains c = false) (hdash : c ≠ '-')
    (hquestion : c ≠ '?') (hcolon : c ≠ ':') : isIndicator c = false := by
  have hall : ("-?:,[]\x7b\x7d#&*!|>'\"%@\x60".toList.all fun d =>
      d = '-' || d = '?' || d = ':' || Scalar.indicators.contains d) = true := by decide
  by_contra hc
  rw [Bool.not_eq_false, isIndicator, List.contains_iff_mem] at hc
  have hd := List.all_eq_true.mp hall c hc
  simp [hdash, hquestion, hcolon] at hd
  simp [hd] at h

/-- Behind a dash, a question mark or a colon at the start of a plain scalar the word goes on. -/
theorem not_atWordEnd_of_plain (h : Scalar.Plain (c :: cs))
    (hc : c = '-' ∨ c = '?' ∨ c = ':') (suffix : List Char) :
    atWordEnd (cs ++ suffix) = false ∧ (cs ++ suffix).head?.any isBlank = false := by
  obtain ⟨-, hlead, -⟩ := Scalar.first_of_plain h
  cases cs with
  | nil => rcases hc with rfl | rfl | rfl <;> cases hlead
  | cons d cs =>
      obtain ⟨hspecial, hbreak⟩ := h.chars d (by simp)
      have hblank : isBlank d = false := by
        rw [Scalar.isBlank_eq hspecial]
        rcases hc with rfl | rfl | rfl <;> simpa [Scalar.spaceOrEnd] using hlead
      simp [atWordEnd, hblank, hbreak]

theorem startsPlain_of_plain (h : Scalar.Plain (c :: cs)) (suffix : List Char) :
    startsPlain false c (cs ++ suffix) = true := by
  by_cases hc : c = '-' ∨ c = '?' ∨ c = ':'
  · obtain ⟨hend, hblank⟩ := not_atWordEnd_of_plain h hc suffix
    rcases hc with rfl | rfl | rfl <;> simp [startsPlain, hend, hblank, -List.head?_append]
  · simp only [not_or] at hc
    obtain ⟨hindicator, -, hspace⟩ := Scalar.first_of_plain h
    have hblank : isBlank c = false := by
      rw [Scalar.isBlank_eq (h.chars c (by simp)).1, hspace]
    simp [startsPlain, isIndicator_of_not_contains hindicator hc.1 hc.2.1 hc.2.2, hblank]

/-- With a plain scalar a token starts, and no mark. -/
theorem token_plain {suffix : List Char} (h : Scalar.Plain (c :: cs))
    (hsuffix : Plain.Bounds suffix) {s' : Lexer}
    (hplain : plainScalar (lexer ⟨q, c :: (cs ++ suffix), ts, indent, outer, key, allowed⟩) =
      .ok () s') :
    token (lexer ⟨q, c :: (cs ++ suffix), ts, indent, outer, key, allowed⟩) = .ok false s' := by
  have hmark : atDocumentMark (c :: (cs ++ suffix)) = false :=
    Plain.not_atDocumentMark h.fits hsuffix
  -- What is tried before a plain scalar starts with an indicator, or ends the word.
  have hne (d : Char) (hd : Scalar.indicators.contains d = true) : c ≠ d := by
    rintro rfl
    rw [(Scalar.first_of_plain h).1] at hd
    cases hd
  have hword (d : Char) (hd : d = '-' ∨ d = '?' ∨ d = ':') :
      (decide (c = d) && atWordEnd (cs ++ suffix)) = false := by
    by_cases hc : c = d
    · simp [(not_atWordEnd_of_plain h (hc ▸ hd) suffix).1]
    · simp [hc]
  have hstarts := startsPlain_of_plain h suffix
  have hflow : (lexer ⟨q, c :: (cs ++ suffix), ts, indent, outer, key, allowed⟩).inFlow = false :=
    rfl
  unfold token
  refine (bind_ok get_ok _).trans ?_
  simp only [hflow]
  simp only [lexer, hmark, hne '%' (by decide), hne '[' (by decide), hne '\x7b' (by decide),
    hne ']' (by decide), hne '\x7d' (by decide), hne ',' (by decide), hne '*' (by decide),
    hne '&' (by decide), hne '!' (by decide), hne '|' (by decide), hne '>' (by decide),
    hne '\'' (by decide), hne '"' (by decide), hword '-' (by decide), hword '?' (by decide),
    hword ':' (by decide), hstarts, decide_false, Bool.false_or, Bool.and_false, Bool.false_and,
    Bool.false_eq_true, if_false, if_true]
  exact (bind_ok hplain _).trans rfl

/-- The kinds of the tokens before the place. -/
def kinds (b : Spot) : List TokenKind := b.tokens.toList.map Token.kind

/-- Behind a value some text comes next, at a column of a later line. The collections that have
started in the value are still open. -/
structure Ends (b : Spot) (column : Nat) (rest : List Char) (indent : Int) (outer : List Int)
    (kinds : List TokenKind) : Prop where
  idle : Idle b.key
  skip : ∃ line, skipTo false b.allowed false b.position b.rest =
    (true, { position := { line, column }, rest })
  stack : ∃ inner, b.indent :: b.indents = inner ++ indent :: outer ∧ (∀ i ∈ inner, indent < i) ∧
    b.kinds ++ List.replicate inner.length .blockEnd = kinds

/-- The lexer reads tokens of the given kinds, up to text at a column of a later line. -/
def Gives (b : Spot) (kinds : List TokenKind) (column : Nat) (rest : List Char) : Prop :=
  ∃ b' : Spot, b.lexer.Moves b'.lexer ∧
    b'.Ends column rest b.indent b.indents (b.kinds ++ kinds)

theorem kinds_closed (q : Position) (count : Nat) (ts : Array Token) :
    (closed q count ts).toList.map Token.kind =
      ts.toList.map Token.kind ++ List.replicate count .blockEnd := by
  simp [toList_closed, blockEnd]

/-- The next line is found behind the end of this one. -/
theorem skipTo_nextLine (hrest : LineText rest) (allowed : Bool) (p : Position) (k : Nat) :
    skipTo false allowed false p ('\n' :: (List.replicate k ' ' ++ rest)) =
      (true, { position := { line := p.line + 1, column := k }, rest }) := by
  rw [skipTo_break, skipTo_blanks, skipTo_line hrest]
  simp [Position.right]

theorem At.mark (h : b.At q allowed (c :: rest) [] b.indent b.indents)
    (hindent : b.indent < q.column) {x : Lex Unit} (hmark : (c, x) ∈ marks false)
    {kind : TokenKind} {behind : Cursor} (hless : behind.rest.length ≤ rest.length)
    (hx : ∀ key, Idle key →
      x (lexer ⟨q, c :: rest, b.tokens, b.indent, b.indents, key, allowed⟩) =
        .ok () (lexer ⟨behind.position, behind.rest, b.tokens.push ⟨kind, q, behind.position⟩,
          b.indent, b.indents, saved q b.tokens.size b.indent key allowed, false⟩)) :
    ∃ key, Idle key ∧ b.lexer.Next (lexer ⟨behind.position, behind.rest,
      b.tokens.push ⟨kind, q, behind.position⟩, b.indent, b.indents, key, false⟩) := by
  obtain ⟨key, hkey, hnext⟩ := h.next
  exact ⟨_, idle_saved hkey hindent _, hnext _ (token_mark rfl hmark (hx key hkey)) rfl hless⟩

theorem quotedScalar_lexer (h : Idle key)
    {read : Position → Position → List Char → Except Fault (List Char × Cursor)}
    (hc : isBreak c = false) {text : List Char} {behind : Cursor}
    (hread : read p (p.right 1) rest = .ok (text, behind)) :
    quotedScalar read (lexer ⟨p, c :: rest, ts, indent, indents, key, allowed⟩) =
      .ok () (lexer ⟨behind.position, behind.rest,
        ts.push ⟨.scalar (String.ofList text) false, p, behind.position⟩, indent, indents,
        saved p ts.size indent key allowed, false⟩) := by
  refine keyLike_lexer h ?_
  refine (Scan.bind_ok Scan.position_ok _).trans ?_
  refine (Scan.bind_ok Scan.skip_one _).trans ?_
  refine (Scan.bind_ok rfl _).trans ?_
  rw [Position.after_of_not_break hc]
  dsimp only
  rw [hread]
  rfl

theorem At.plain
    (h : b.At q allowed (cs ++ '\n' :: (List.replicate k ' ' ++ rest)) [] b.indent b.indents)
    (hcs : Scalar.Plain cs) (hrest : LineText rest) (hk : k ≤ b.indent)
    (hindent : b.indent < q.column) : b.Gives [.scalar (String.ofList cs) true] k rest := by
  have hbounds := Plain.bounds_cons (by decide) (List.replicate k ' ' ++ rest) (c := '\n')
  have hscan : Plain.scan { inFlow := false, indent := b.indent + 1, start := q } [] .none q
      (cs ++ '\n' :: (List.replicate k ' ' ++ rest)) = .ok {
        text := cs
        brokeLine := true
        behind := { position := { line := q.line + 1, column := k }, rest } } := by
    refine (Plain.scan_plain rfl hcs (by simpa using by omega) hbounds).trans ?_
    refine (Plain.scan_line rfl (by simpa using by omega) hrest _ _).trans ?_
    simp [Position.right]
  cases cs with
  | nil => cases hcs.fits
  | cons c cs =>
      obtain ⟨key, hkey, hnext⟩ := h.next
      refine ⟨_, .single (hnext _ (token_plain hcs hbounds (plainScalar_lexer hkey hscan)) rfl ?_),
        ?_⟩
      · simp [lexer]
        omega
      · exact {
          idle := idle_saved hkey hindent _
          skip := ⟨_, skipTo_line hrest _ _⟩
          stack := ⟨[], rfl, by simp, by simp [kinds, closed]⟩ }

theorem At.quoted {body : List Char} (h : b.At q allowed
      (c :: (body ++ '\n' :: (List.replicate k ' ' ++ rest))) [] b.indent b.indents)
    (hindent : b.indent < q.column) (hc : isBreak c = false)
    {read : Position → Position → List Char → Except Fault (List Char × Cursor)}
    (hmark : (c, quotedScalar read) ∈ marks false)
    (hread : read q (q.right 1) (body ++ '\n' :: (List.replicate k ' ' ++ rest)) =
      .ok (cs, { position := p, rest := '\n' :: (List.replicate k ' ' ++ rest) }))
    (hrest : LineText rest) : b.Gives [.scalar (String.ofList cs) false] k rest := by
  obtain ⟨key, hkey, hnext⟩ := h.mark hindent hmark (by simp)
    fun key hkey => quotedScalar_lexer hkey hc hread
  refine ⟨_, .single hnext, ?_⟩
  exact {
    idle := hkey
    skip := ⟨_, skipTo_nextLine hrest _ _ _⟩
    stack := ⟨[], rfl, by simp, by simp [kinds]⟩ }

/-- The same behind a bracket, with the key that may have started there. -/
def bracketed (first : Option PossibleKey) (b : Spot) : Lexer :=
  { b.lexer with keys := [first, b.key] }

variable {first : Option PossibleKey}

theorem openFlow_lexer (h : Idle key) (kind : TokenKind) :
    openFlow kind (lexer ⟨p, c :: rest, ts, indent, indents, key, allowed⟩) =
      .ok () (bracketed none ⟨p.after c, rest, ts.push ⟨kind, p, p.after c⟩, indent, indents,
        saved p ts.size indent key allowed, true⟩) := by
  unfold openFlow
  rw [bind_ok (saveKey_lexer h)]
  rfl

theorem closeFlow_bracketed (h : Idle first) (kind : TokenKind) :
    closeFlow kind (bracketed first ⟨p, c :: rest, ts, indent, indents, key, allowed⟩) =
      .ok () (lexer ⟨p.after c, rest, ts.push ⟨kind, p, p.after c⟩, indent, indents, key,
        false⟩) := by
  cases first with
  | none => rfl
  | some k =>
      unfold closeFlow
      rw [bind_ok (dropKey_some rfl (h k rfl))]
      rfl

theorem dropStaleKeys_bracketed (hfirst : Idle first) (h : Idle key) :
    ∃ first' key', Idle first' ∧ Idle key' ∧
      dropStaleKeys (bracketed first ⟨p, cs, ts, indent, indents, key, allowed⟩) =
        .ok () (bracketed first' ⟨p, cs, ts, indent, indents, key', allowed⟩) := by
  obtain ⟨keys, hlength, hkeys, hdrop⟩ := @Lex.dropStaleKeys_idle
    (bracketed first ⟨p, cs, ts, indent, indents, key, allowed⟩)
    (by simpa [bracketed] using ⟨hfirst, h⟩)
  obtain ⟨first', key', rfl⟩ := List.length_eq_two.mp hlength
  exact ⟨first', key', hkeys first' (by simp), hkeys key' (by simp), hdrop⟩

theorem skipToToken_bracketed
    (h : skipTo true b.allowed false b.position b.rest =
      (b.allowed, { position := b.position, rest := b.rest })) :
    skipToToken (bracketed first b) = .ok () (bracketed first b) := by
  change EStateM.Result.ok () { bracketed first b with
    keyAllowed := (skipTo true b.allowed false b.position b.rest).1
    cursor := (skipTo true b.allowed false b.position b.rest).2 } = _
  rw [h]
  rfl

theorem unindentTo_bracketed {column : Int} :
    unindentTo column (bracketed first b) = .ok () (bracketed first b) := rfl

theorem bracketed_next (hfirst : Idle first) (h : Idle key) {kind : TokenKind}
    (hmark : (c, closeFlow kind) ∈ marks true)
    (hc : ∀ p, skipTo true allowed false p (c :: rest) =
      (allowed, { position := p, rest := c :: rest })) :
    ∃ key', Idle key' ∧
      (bracketed first ⟨p, c :: rest, ts, indent, indents, key, allowed⟩).Next
        (lexer ⟨p.after c, rest, ts.push ⟨kind, p, p.after c⟩, indent, indents, key', false⟩) := by
  obtain ⟨first₁, key₁, hfirst₁, hkey₁, hdrop₁⟩ :=
    @dropStaleKeys_bracketed p (c :: rest) ts indent indents key allowed first hfirst h
  obtain ⟨first₂, key₂, hfirst₂, hkey₂, hdrop₂⟩ :=
    @dropStaleKeys_bracketed p (c :: rest) ts indent indents key₁ allowed first₁ hfirst₁ hkey₁
  refine ⟨key₂, hkey₂, ⟨_, hdrop₁, ?_⟩, by simp [lexer, bracketed]⟩
  have hskipped := @skipToToken_bracketed
    ⟨p, c :: rest, ts, indent, indents, key₁, allowed⟩ first₁ (hc p)
  have htoken : token (bracketed first₂ ⟨p, c :: rest, ts, indent, indents, key₂, allowed⟩) =
      .ok false (lexer ⟨p.after c, rest, ts.push ⟨kind, p, p.after c⟩, indent, indents, key₂,
        false⟩) :=
    token_mark rfl hmark (closeFlow_bracketed hfirst₂ kind)
  unfold step
  rw [bind_ok hskipped, bind_ok (need_ok rfl 1), bind_ok hdrop₂, bind_ok get_ok,
    bind_ok unindentTo_bracketed, bind_ok (need_ok rfl 4), bind_ok htoken]
  exact (bind_ok (need_ok rfl 1) _).trans rfl

/-- An empty collection between brackets. -/
theorem At.flow {d : Char} (h : b.At q allowed
      (c :: d :: '\n' :: (List.replicate k ' ' ++ rest)) [] b.indent b.indents)
    (hindent : b.indent < q.column) {start stop : TokenKind}
    (hstart : (c, openFlow start) ∈ marks false) (hstop : (d, closeFlow stop) ∈ marks true)
    (hd : StartsToken d) (hrest : LineText rest) : b.Gives [start, stop] k rest := by
  obtain ⟨key, hkey, hnext⟩ := h.next
  have hskip (p : Position) (cs : List Char) :
      skipTo true true false p (d :: cs) = (true, { position := p, rest := d :: cs }) := by
    simp [skipTo, hd.noBreak, hd.noComment, hd.noSpace, hd.noTab, hd.noMark]
  have hnone : Idle none := by simp [Idle]
  obtain ⟨key', hkey', hnext'⟩ :=
    bracketed_next hnone (idle_saved hkey hindent _) hstop fun p => hskip p _
  refine ⟨_, .trans (.single (hnext _ (token_mark rfl hstart (openFlow_lexer hkey start)) rfl ?_))
    (.single hnext'), ?_⟩
  · exact Nat.le_refl _
  · exact {
      idle := hkey'
      skip := ⟨_, skipTo_nextLine hrest _ _ _⟩
      stack := ⟨[], rfl, by simp, by simp [kinds, closed]⟩ }

/-! ## Entries -/

theorem length_le_utf8ByteSize (s : String) : s.toList.length ≤ s.utf8ByteSize := by
  have hlen (cs : List Char) : cs.length ≤ String.utf8Len cs := by
    induction cs with
    | nil => exact Nat.zero_le _
    | cons c cs ih =>
        have hpos := c.utf8Size_pos
        rw [String.utf8Len_cons, List.length_cons]
        omega
  rw [← s.ofList_toList, String.utf8ByteSize_ofList, String.toList_ofList]
  exact hlen s.toList

/-- The kind of token for the start of a collection, when one starts. -/
def openingKinds (kind : TokenKind) (column : Nat) (indent : Int) : List TokenKind :=
  if indent < column then [kind] else []

theorem kinds_opening (kind : TokenKind) :
    (opening kind q indent).toList.map Token.kind = openingKinds kind q.column indent := by
  unfold opening openingKinds
  split <;> rfl

/-- Behind the mark of an entry its value comes next. -/
structure Behind (b : Spot) (rest : List Char) (column : Nat) (outer : List Int)
    (kinds : List TokenKind) : Prop where
  rest : b.rest = rest
  idle : Idle b.key
  place : column < b.position.column
  indent : b.indent = column
  indents : b.indents = outer
  kinds : b.kinds = kinds

theorem At.item (h : b.At q true ('-' :: rest) inner indent outer) (hrest : atWordEnd rest = true) :
    ∃ b' : Spot, b.lexer.Next b'.lexer ∧ b'.position = q.right 1 ∧ b'.allowed = true ∧
      b'.Behind rest q.column (within q.column indent outer)
        (b.kinds ++ List.replicate inner.length .blockEnd ++
          openingKinds .listStart q.column indent ++ [.item]) := by
  obtain ⟨key, hkey, hnext⟩ := h.next
  refine ⟨_, hnext _ (token_item hrest (item_lexer hkey h.outer)) rfl (Nat.le_refl _), ?_, rfl, ?_⟩
  · exact Position.after_of_not_break (show isBreak '-' = false by decide) q
  · exact {
      rest := rfl
      idle := by simp [Idle]
      place := by
        rw [Position.after_of_not_break (show isBreak '-' = false by decide)]
        simp [Position.right]
      indent := rfl
      indents := rfl
      kinds := by simp [Spot.kinds, kinds_closed, ← kinds_opening (q := q)] }

/-- Behind a tag the value that has it comes next. -/
theorem At.tag {name : String}
    (h : b.At q allowed ('!' :: (name.toList ++ rest)) [] b.indent b.indents)
    (hindent : b.indent < q.column) (hname : AlternativeName name) (hrest : atWordEnd rest = true) :
    ∃ b' : Spot, b.lexer.Next b'.lexer ∧ Idle b'.key ∧ q.column ≤ b'.position.column ∧
      b'.rest = rest ∧ b'.indent = b.indent ∧ b'.indents = b.indents ∧
      b'.kinds = b.kinds ++ [.tag "!" (name.toList.map Char.toUInt8)] := by
  have hne : name.toList ≠ [] := by simpa using hname.ne_empty
  obtain ⟨key, hkey, hnext⟩ := h.mark hindent (x := keyLike (Property.tag false))
    (by simp [marks]) (by simp)
    fun key hkey => keyLike_lexer hkey (Property.tag_name hne hname.chars hrest)
  exact ⟨_, hnext, hkey, by simp [Position.right], rfl, rfl, rfl, by simp [kinds]⟩

/-- A plain scalar before a colon ends there. -/
theorem scan_name {name : List Char} (hname : Scalar.Plain name) (hindent : indent ≤ q.column)
    (hrest : atWordEnd rest = true) :
    Plain.scan { inFlow := false, indent := indent + 1, start := q } [] .none q
        (name ++ ':' :: rest) =
      .ok {
        text := name
        brokeLine := false
        behind := { position := q.right name.length, rest := ':' :: rest } } := by
  have hbounds := Plain.bounds_cons (by decide) rest (c := ':')
  have hcolumn : (q.right name.length).column ≠ 0 := by
    cases name with
    | nil => cases hname.fits
    | cons c name => simp [Position.right]
  refine (Plain.scan_plain rfl hname (by simpa using hindent) hbounds).trans ?_
  refine (Plain.scan_key rfl hrest _ hcolumn).trans ?_
  simp

theorem At.name (h : b.At q true (cs ++ ':' :: rest) inner indent outer)
    (hcs : Scalar.Plain cs) (hrest : atWordEnd rest = true) :
    b.lexer.Next (lexer ⟨q.right cs.length, ':' :: rest,
      (closed q inner.length b.tokens).push
        ⟨.scalar (String.ofList cs) true, q, q.right cs.length⟩,
      indent, outer, saved q (closed q inner.length b.tokens).size indent none true, false⟩) := by
  have hscan := scan_name hcs h.outer hrest
  have hbounds := Plain.bounds_cons (by decide) rest (c := ':')
  cases cs with
  | nil => cases hcs.fits
  | cons c cs =>
      obtain ⟨key, hkey, hnext⟩ := h.next
      refine hnext _ (token_plain hcs hbounds (plainScalar_lexer hkey hscan)) rfl ?_
      simp [lexer]

/-- The colon behind a name makes a key of it. -/
theorem colon_next {t : Token} {k : PossibleKey}
    (hnumber : k.number = ts.size) (hindent : indent ≤ k.position.column)
    (hline : k.position.line = p.line) (hafter : k.position.column ≤ p.column)
    (hnear : p.column ≤ k.position.column + 1024) (hrest : atWordEnd rest = true) :
    (lexer ⟨p, ':' :: rest, ts.push t, indent, outer, some k, false⟩).Next
      (lexer ⟨p.after ':', rest, (((ts ++ opening .mapStart k.position indent).push
          ⟨.key, k.position, k.position⟩).push t).push ⟨.value, p, p.after ':'⟩,
        k.position.column, within k.position.column indent outer, none, false⟩) := by
  have hdrop : dropStaleKeys (lexer ⟨p, ':' :: rest, ts.push t, indent, outer, some k, false⟩) =
      .ok () (lexer ⟨p, ':' :: rest, ts.push t, indent, outer, some k, false⟩) := by
    refine dropStaleKeys_fresh rfl ?_
    simp only [lexer]
    omega
  refine ⟨⟨_, hdrop, ?_⟩, Nat.lt_succ_self _⟩
  have hcolon : StartsToken ':' := startsToken_mark (by simp)
  have hskip := skipTo_line (.cons hcolon rest) false p
  have hstack : indent :: outer = [] ++ indent :: outer := rfl
  exact step_of_token hskip hdrop hstack (by simp) (by omega)
    (token_value hrest (value_lexer hnumber hindent)) rfl

theorem At.field {name : String} (h : b.At q true (name.toList ++ ':' :: rest) inner indent outer)
    (hname : Scalar.NamesField name) (hrest : atWordEnd rest = true) :
    ∃ b' : Spot, b.lexer.Moves b'.lexer ∧
      b'.Behind rest q.column (within q.column indent outer)
        (b.kinds ++ List.replicate inner.length .blockEnd ++
          openingKinds .mapStart q.column indent ++ [.key, .scalar name true, .value]) := by
  -- A key is given up only far behind its start, and a name is shorter than that.
  have hlength : name.toList.length ≤ 128 := by
    have hkey := hname.isKey
    have hle := length_le_utf8ByteSize name
    simp only [Scalar.isKey, Bool.and_eq_true, decide_eq_true_eq] at hkey
    omega
  have hnext := h.name (Scalar.plain_of_style hname.plain) hrest
  refine ⟨_, .trans (.single hnext) (.single (colon_next rfl h.outer rfl ?_ ?_ hrest)), ?_⟩
  · simp [Position.right]
  · simp [Position.right]
    omega
  · exact {
      rest := rfl
      idle := by simp [Idle]
      place := by
        rw [Position.after_of_not_break (show isBreak ':' = false by decide)]
        simp [Position.right]
      indent := rfl
      indents := rfl
      kinds := by simp [Spot.kinds, kinds_closed, ← kinds_opening (q := q)] }

/-! ## The end of a text -/

variable {line : Nat}

theorem leaveDocument_lexer (h : Idle key) :
    leaveDocument (lexer ⟨{ line }, [], ts, 0, [-1], key, allowed⟩) =
      .ok () (lexer ⟨{ line }, [], ts.push (blockEnd { line }), -1, [], none, false⟩) := by
  have hunindent := @unindentTo_lexer { line } [] ts 0 [-1] key allowed (-1) [0] [] (-1) rfl
    (by simp) (Int.le_refl _)
  unfold leaveDocument
  rw [bind_ok hunindent, bind_ok (dropKey_lexer h)]
  rfl

/-- At the end of the text the outermost collection ends. -/
theorem token_end (h : Idle key) :
    token (lexer ⟨{ line }, [], ts, 0, [-1], key, allowed⟩) =
      .ok true (lexer ⟨{ line }, [],
        (ts.push (blockEnd { line })).push ⟨.streamEnd, { line }, { line }⟩, -1, [], none,
        false⟩) := by
  have hend : streamEnd (lexer ⟨{ line }, [], ts, 0, [-1], key, allowed⟩) =
      .ok () (lexer ⟨{ line }, [],
        (ts.push (blockEnd { line })).push ⟨.streamEnd, { line }, { line }⟩, -1, [], none,
        false⟩) := by
    unfold streamEnd
    refine (bind_ok (modify_ok _) _).trans ?_
    refine (bind_ok (leaveDocument_lexer h) _).trans ?_
    rfl
  unfold token
  refine (bind_ok get_ok _).trans ?_
  exact (bind_ok hend _).trans rfl

theorem Ends.run_eq {kinds : List TokenKind} (h : b.Ends 0 [] 0 [-1] kinds) :
    ∃ ts, ts.map Token.kind = kinds ++ [.blockEnd, .streamEnd] ∧
      ∀ fuel settled, b.lexer.cursor.rest.length < fuel →
        Lexer.run fuel settled b.lexer = (ts, none) := by
  obtain ⟨line, hskip⟩ := h.skip
  obtain ⟨inner, hstack, hinner, hkinds⟩ := h.stack
  obtain ⟨p, cs, ts, indent, indents, key, allowed⟩ := b
  obtain ⟨key₁, hkey₁, hdrop₁⟩ := @dropStaleKeys_lexer p cs ts indent indents key allowed h.idle
  obtain ⟨key₂, hkey₂, hdrop₂⟩ :=
    @dropStaleKeys_lexer { line } [] ts indent indents key₁ true hkey₁
  obtain ⟨key₃, -, hdrop₃⟩ := @dropStaleKeys_lexer { line } []
    (((closed { line } inner.length ts).push (blockEnd { line })).push
      ⟨.streamEnd, { line }, { line }⟩) (-1) [] none false (by simp [Idle])
  have hstep := step_of_token hskip hdrop₂ hstack hinner (Int.le_refl _) (token_end hkey₂) rfl
  refine ⟨(((closed { line } inner.length ts).push (blockEnd { line })).push
      ⟨.streamEnd, { line }, { line }⟩).toList, ?_, fun fuel settled hfuel => ?_⟩
  · simp [kinds_closed, ← hkinds, Spot.kinds, blockEnd]
  · cases fuel with
    | zero => exact absurd hfuel (Nat.not_lt_zero _)
    | succ fuel =>
        rw [Lexer.run, hdrop₁]
        simp only [hstep, hdrop₃]
        rfl

end Spot

end Backend.Markup
