import Backend.Proofs.Spelling
import Mathlib

/-! # From tokens to events

The parser takes its tokens one by one, and remembers what it waits for in the collections that are
open. From the tokens of a written value it gives the events of that value, and then stands behind
it with the collections around it as they were. So the tokens of a whole text give the events of
one document.
-/

namespace Backend.Markup

/-! ## Steps of the parser -/

namespace Parse

variable {α β : Type} {s s' : Parser}

theorem bind_ok {x : Parse α} {a : α} (h : x s = .ok (a, s')) (f : α → Parse β) :
    (x >>= f) s = f a s' := by
  change (x s).bind _ = _
  rw [h]
  rfl

theorem get_ok : (get : Parse Parser) s = .ok (s, s) := rfl

theorem modify_ok (f : Parser → Parser) : (modify f : Parse Unit) s = .ok ((), f s) := rfl

theorem peek_cons {t : Token} {rest : List Token} (h : s.tokens = t :: rest) :
    peek s = .ok (t, s) := by
  obtain ⟨_, _, _, _, _, _⟩ := s
  cases h
  rfl

/-- No anchor, tag or alias. -/
def Bare : TokenKind → Prop
  | .alias _ | .anchor _ | .tag .. => False
  | _ => True

theorem properties_none {t : Token} {rest : List Token} (h : s.tokens = t :: rest)
    (hbare : Bare t.kind) : properties s = .ok ({}, s) := by
  obtain ⟨_, _, _, _, _, _⟩ := s
  obtain ⟨kind, _, _⟩ := t
  cases h
  -- Both rounds of the loop look at this token, and neither takes it.
  cases kind <;> first | rfl | cases hbare

theorem skip_eq : skip s = .ok ((), { s with tokens := s.tokens.tail }) := rfl

theorem properties_tag {mark t : Token} {rest : List Token} {bytes : List UInt8}
    (h : s.tokens = mark :: t :: rest) (hmark : mark.kind = .tag "!" bytes) (hbare : Bare t.kind)
    (hhandles : s.handles = usualHandles) :
    properties s =
      .ok ({ tag := some ((Tag.ofText "!").append bytes) }, { s with tokens := t :: rest }) := by
  obtain ⟨_, _, _, _, _, _⟩ := s
  obtain ⟨_, _, _⟩ := mark
  obtain ⟨kind, _, _⟩ := t
  cases h
  cases hmark
  cases hhandles
  -- The first round takes the tag, and the second one leaves what is behind it.
  cases kind <;> first | rfl | cases hbare

/-- The next value has a given tag and starts with a given token. -/
structure Leads (s : Parser) (tag : Option Tag) (t : Token) (rest : List Token) : Prop where
  properties : properties s = .ok ({ tag }, { s with tokens := t :: rest })
  noAlias : ∃ first more, s.tokens = first :: more ∧ ∀ name, first.kind ≠ .alias name

end Parse

/-- The parser behind a value, before the given tokens. -/
def Parser.behind (s : Parser) (rest : List Token) : Parser :=
  { s with
    tokens := rest
    expect := s.outer.headD (.documentStart false)
    outer := s.outer.tail }

/-- The parser behind the collection in which it stands, before the given tokens. -/
def Parser.left (s : Parser) (rest : List Token) : Parser :=
  { s.behind rest with starts := s.starts.tail }

namespace Parse

variable {tag : Option Tag} {t : Token} {rest : List Token} {block flush : Bool}

theorem node_scalar (h : Leads s tag t rest) {text : String} {plain : Bool}
    (hkind : t.kind = .scalar text plain) :
    ∃ p, node block flush s = .ok ((.scalar { tag, text, plain }, p), s.behind rest) := by
  obtain ⟨first, more, hs, hfirst⟩ := h.noAlias
  refine ⟨first.start, ?_⟩
  unfold node
  rw [bind_ok (peek_cons hs)]
  cases hk : first.kind
  case «alias» name => exact absurd hk (hfirst name)
  all_goals
    dsimp only
    rw [bind_ok h.properties, bind_ok (peek_cons rfl), hkind]
    rfl

/-- A value that is a collection, with what is expected in it. -/
theorem node_collection (h : Leads s tag t rest) {e : Event String} {next : Expect}
    (hkind : t.kind = .flowListStart ∧ e = .listStart { tag } ∧ next = .flowItem true ∨
      t.kind = .flowMapStart ∧ e = .mapStart { tag } ∧ next = .flowKey true ∨
      flush = true ∧ t.kind = .item ∧ e = .listStart { tag } ∧ next = .flushItem ∨
      block = true ∧ t.kind = .listStart ∧ e = .listStart { tag } ∧ next = .item true ∨
      block = true ∧ t.kind = .mapStart ∧ e = .mapStart { tag } ∧ next = .key true) :
    ∃ p, node block flush s = .ok ((e, p), { s with tokens := t :: rest, expect := next }) := by
  obtain ⟨first, more, hs, hfirst⟩ := h.noAlias
  refine ⟨first.start, ?_⟩
  unfold node
  rw [bind_ok (peek_cons hs)]
  cases hk : first.kind
  case «alias» name => exact absurd hk (hfirst name)
  all_goals
    dsimp only
    rw [bind_ok h.properties, bind_ok (peek_cons rfl)]
    rcases hkind with ⟨hkind, rfl, rfl⟩ | ⟨hkind, rfl, rfl⟩ | ⟨rfl, hkind, rfl, rfl⟩ |
      ⟨rfl, hkind, rfl, rfl⟩ | ⟨rfl, hkind, rfl, rfl⟩ <;> rw [hkind]
    · rfl
    · rfl
    · rfl
    · cases flush <;> rfl
    · cases flush <;> rfl

/-! ## Inside collections -/

/-- The parser goes to what a collection holds. Only before the first part a token is passed. -/
inductive Enters : Bool → Parser → Parser → Prop where
  | first {s : Parser} {t : Token} {ts : List Token} (h : s.tokens = t :: ts) :
      Enters true s { s with tokens := ts, starts := t.start :: s.starts }
  | later (s : Parser) : Enters false s s

/-- There is a next token, and it is of none of the given kinds. -/
def Avoids (kinds : List TokenKind) (ts : List Token) : Prop :=
  ∃ t rest, ts = t :: rest ∧ t.kind ∉ kinds

theorem nodeUnless_node {kinds : List TokenKind} (h : Avoids kinds s.tokens) (next : Expect)
    (place : Position) (block flush : Bool) :
    nodeUnless kinds next place block flush s =
      node block flush { s with outer := next :: s.outer } := by
  obtain ⟨t, rest, htokens, hkind⟩ := h
  unfold nodeUnless
  rw [bind_ok (peek_cons htokens), if_neg (by simpa using hkind)]
  rfl

theorem enter_ok {t : Token} {ts : List Token} (h : s.tokens = t :: ts) :
    enter s = .ok ((), { s with tokens := ts, starts := t.start :: s.starts }) := by
  unfold enter
  rw [bind_ok (peek_cons h)]
  change skip { s with starts := t.start :: s.starts } = _
  rw [skip_eq, h]
  rfl

theorem leave_ok {t : Token} {ts : List Token} (h : s.tokens = t :: ts) :
    leave s = .ok ((), s.left ts) := by
  have htail : s.tokens.tail = ts := by rw [h, List.tail_cons]
  subst htail
  rfl

theorem Enters.run {first : Bool} (h : Enters first s s') (x : Parse α) :
    (if first = true then enter >>= fun _ => x else x) s = x s' := by
  cases h with
  | first hs => rw [if_pos rfl, bind_ok (enter_ok hs)]
  | later => rw [if_neg (by decide)]

theorem skip_cons {t : Token} {ts : List Token} (h : s.tokens = t :: ts) :
    skip s = .ok ((), { s with tokens := ts }) := by
  rw [skip_eq, h, List.tail_cons]

section Events

variable {first : Bool} {i : Token} {ts : List Token}

theorem event_item (h : Enters first s s') (hexpect : s.expect = .item first)
    (htokens : s'.tokens = i :: ts) (hi : i.kind = .item) (hts : Avoids [.item, .blockEnd] ts) :
    event s = node true false { s' with tokens := ts, outer := .item false :: s'.outer } := by
  unfold event
  rw [bind_ok get_ok, hexpect]
  dsimp only
  rw [h.run, bind_ok (peek_cons htokens), hi]
  dsimp only
  rw [bind_ok (skip_cons htokens), nodeUnless_node hts]

theorem event_listEnd (h : Enters first s s') (hexpect : s.expect = .item first)
    (htokens : s'.tokens = t :: ts) (ht : t.kind = .blockEnd) :
    event s = .ok ((.listEnd, t.start), s'.left ts) := by
  unfold event
  rw [bind_ok get_ok, hexpect]
  dsimp only
  rw [h.run, bind_ok (peek_cons htokens), ht]
  dsimp only
  rw [bind_ok (leave_ok htokens)]
  rfl

theorem event_key (h : Enters first s s') (hexpect : s.expect = .key first)
    (htokens : s'.tokens = i :: ts) (hi : i.kind = .key)
    (hts : Avoids [.key, .value, .blockEnd] ts) :
    event s = node true true { s' with tokens := ts, outer := .value :: s'.outer } := by
  unfold event
  rw [bind_ok get_ok, hexpect]
  dsimp only
  rw [h.run, bind_ok (peek_cons htokens), hi]
  dsimp only
  rw [bind_ok (skip_cons htokens), nodeUnless_node hts]

theorem event_mapEnd (h : Enters first s s') (hexpect : s.expect = .key first)
    (htokens : s'.tokens = t :: ts) (ht : t.kind = .blockEnd) :
    event s = .ok ((.mapEnd, t.start), s'.left ts) := by
  unfold event
  rw [bind_ok get_ok, hexpect]
  dsimp only
  rw [h.run, bind_ok (peek_cons htokens), ht]
  dsimp only
  rw [bind_ok (leave_ok htokens)]
  rfl

theorem event_value (hexpect : s.expect = .value) (htokens : s.tokens = i :: ts)
    (hi : i.kind = .value) (hts : Avoids [.key, .value, .blockEnd] ts) :
    event s = node true true { s with tokens := ts, outer := .key false :: s.outer } := by
  unfold event
  rw [bind_ok get_ok]
  conv_lhs => rw [hexpect]
  dsimp only
  rw [bind_ok (peek_cons htokens), if_pos hi, bind_ok (skip_cons htokens), nodeUnless_node hts]

theorem event_flushItem (hexpect : s.expect = .flushItem) (htokens : s.tokens = i :: ts)
    (hi : i.kind = .item) (hts : Avoids [.item, .key, .value, .blockEnd] ts) :
    event s = node true false { s with tokens := ts, outer := .flushItem :: s.outer } := by
  unfold event
  rw [bind_ok get_ok]
  conv_lhs => rw [hexpect]
  dsimp only
  rw [bind_ok (peek_cons htokens), if_pos hi, bind_ok (skip_cons htokens), nodeUnless_node hts]

theorem event_flushEnd (hexpect : s.expect = .flushItem) (hts : Avoids [.item] s.tokens) :
    ∃ p, event s = .ok ((.listEnd, p), s.behind s.tokens) := by
  obtain ⟨t, rest, htokens, ht⟩ := hts
  refine ⟨t.start, ?_⟩
  unfold event
  rw [bind_ok get_ok, hexpect]
  dsimp only
  rw [bind_ok (peek_cons htokens), if_neg (by simpa using ht)]
  rfl

theorem event_flowListEnd (hexpect : s.expect = .flowItem true) (htokens : s.tokens = i :: t :: ts)
    (ht : t.kind = .flowListEnd) : event s = .ok ((.listEnd, t.start), s.behind ts) := by
  unfold event
  rw [bind_ok get_ok, hexpect]
  dsimp only
  rw [if_pos rfl, bind_ok (enter_ok htokens), bind_ok (peek_cons rfl),
    if_neg (by simp), bind_ok (peek_cons rfl), ht]
  rfl

theorem event_flowMapEnd (hexpect : s.expect = .flowKey true) (htokens : s.tokens = i :: t :: ts)
    (ht : t.kind = .flowMapEnd) : event s = .ok ((.mapEnd, t.start), s.behind ts) := by
  unfold event
  rw [bind_ok get_ok, hexpect]
  dsimp only
  rw [if_pos rfl, bind_ok (enter_ok htokens), bind_ok (peek_cons rfl),
    if_neg (by simp), bind_ok (peek_cons rfl), ht]
  rfl

end Events

end Parse

/-! ## The tokens of a written value -/

namespace Scalar

/-- A character that stands for itself on a line. -/
def Clean (c : Char) : Prop := isSpecial c = false ∧ isBreak c = false

instance : DecidablePred Clean := fun c => inferInstanceAs (Decidable (_ ∧ isBreak c = false))

/-- Characters that can stand on one line without quotes, and are read as they stand. -/
structure Plain (cs : List Char) : Prop where
  fits : fitsBlock cs = true
  chars : ∀ c ∈ cs, Clean c

instance (cs : List Char) : Decidable (Plain cs) :=
  have : Decidable (∀ c ∈ cs, Clean c) := List.decidableBAll _ _
  decidable_of_iff (fitsBlock cs = true ∧ ∀ c ∈ cs, Clean c)
    ⟨fun h => ⟨h.1, h.2⟩, fun h => ⟨h.1, h.2⟩⟩

/-- The text is written on one line. -/
def OneLine (s : String) : Prop := ∀ c ∈ (render 0 s).toList, isBreak c = false

instance : DecidablePred OneLine := fun s => List.decidableBAll _ (render 0 s).toList

end Scalar

namespace Node

def isTagged : Node → Bool
  | .tagged .. => true
  | _ => false

/-- Values that have every scalar on one line, and tags that can be told from what follows. -/
inductive Legible : Node → Prop where
  | word {s : String} (h : Scalar.Plain s.toList) : Legible (.word s)
  | text {s : String} (h : Scalar.OneLine s) : Legible (.text s)
  | list {items : List Node} (h : ∀ x ∈ items, Legible x) : Legible (.list items)
  | map {fields : List (String × Node)} (hkeys : ∀ field ∈ fields, Scalar.NamesField field.1)
      (h : ∀ field ∈ fields, Legible field.2) : Legible (.map fields)
  | tagged {name : String} {x : Node} (hname : AlternativeName name)
      (huntagged : x.isTagged = false) (h : Legible x) : Legible (.tagged name x)

mutual

/-- The kinds of the tokens of a value. A list that is flush with the map around it has no tokens
for its start and its end. -/
def kinds (flush : Bool) : Node → List TokenKind
  | .word s => [.scalar s true]
  | .text s => [.scalar s (Scalar.style s = .plain)]
  | .list [] => [.flowListStart, .flowListEnd]
  | .map [] => [.flowMapStart, .flowMapEnd]
  | .list items =>
      if flush then kindsItems items else .listStart :: (kindsItems items ++ [.blockEnd])
  | .map fields => .mapStart :: (kindsFields fields ++ [.blockEnd])
  | .tagged name x => .tag "!" (name.toList.map Char.toUInt8) :: x.kinds flush

def kindsItems : List Node → List TokenKind
  | [] => []
  | x :: rest => .item :: (x.kinds false ++ kindsItems rest)

def kindsFields : List (String × Node) → List TokenKind
  | [] => []
  | (key, x) :: rest =>
      .key :: .scalar key (Scalar.style key = .plain) :: .value ::
        (x.kinds true ++ kindsFields rest)

end

/-- The kinds of tokens with which a value starts, unless it is a list that is flush. -/
def startsValue : TokenKind → Bool
  | .scalar .. | .flowListStart | .flowMapStart | .listStart | .mapStart | .tag .. => true
  | _ => false

theorem exists_kinds_eq (flush : Bool) (n : Node) :
    ∃ kind more, n.kinds flush = kind :: more ∧
      (startsValue kind = true ∨ flush = true ∧ kind = .item) ∧
      (n.isTagged = false → Parse.Bare kind) := by
  cases n with
  | word | text => exact ⟨_, _, rfl, .inl rfl, fun _ => trivial⟩
  | list items =>
      cases items with
      | nil => exact ⟨_, _, rfl, .inl rfl, fun _ => trivial⟩
      | cons x rest =>
          cases flush with
          | false => exact ⟨_, _, rfl, .inl rfl, fun _ => trivial⟩
          | true => exact ⟨_, _, rfl, .inr ⟨rfl, rfl⟩, fun _ => trivial⟩
  | map fields => cases fields <;> exact ⟨_, _, rfl, .inl rfl, fun _ => trivial⟩
  | tagged name x => exact ⟨_, _, rfl, .inl rfl, fun h => by cases h⟩

theorem exists_tokens_eq {n : Node} {flush : Bool} {ts : List Token}
    (h : ts.map Token.kind = n.kinds flush) :
    ∃ t more, ts = t :: more ∧
      (startsValue t.kind = true ∨ flush = true ∧ t.kind = .item) ∧
      (n.isTagged = false → Parse.Bare t.kind) := by
  obtain ⟨kind, more, hhead, hkind, hbare⟩ := n.exists_kinds_eq flush
  rw [hhead] at h
  obtain ⟨t, ts, rfl, rfl, -⟩ := List.map_eq_cons_iff.mp h
  exact ⟨t, ts, rfl, hkind, hbare⟩

end Node

namespace Parser

/-- The parser gives events one after the other. -/
inductive Emits : Parser → List (Located String) → Parser → Prop where
  | refl (s : Parser) : Emits s [] s
  | step {s s' s'' : Parser} {e : Located String} {es : List (Located String)}
      (h : Parse.event s = .ok (e, s')) (hes : Emits s' es s'') : Emits s (e :: es) s''

theorem Emits.append {s s' s'' : Parser} {es es' : List (Located String)} (h : Emits s es s')
    (h' : Emits s' es' s'') : Emits s (es ++ es') s'' := by
  induction h with
  | refl => exact h'
  | step hevent _ ih => exact .step hevent (ih h')

theorem Emits.run {s s' : Parser} {es : List (Located String)} (h : Emits s es s')
    (hend : ∀ e ∈ es, e.1 ≠ .streamEnd) (fuel : Nat) (read : List (Located String)) :
    run (es.length + fuel) read s = run fuel (es.reverse ++ read) s' := by
  induction h generalizing read with
  | refl => simp
  | @step s s' s'' e es hevent _ ih =>
      have hlength : (e :: es).length + fuel = es.length + fuel + 1 := by
        simp only [List.length_cons]
        omega
      have he := hend e (by simp)
      obtain ⟨e, p⟩ := e
      rw [hlength, Parser.run, hevent]
      have hrest := ih (fun e he => hend e (by simp [he])) ((e, p) :: read)
      cases e with
      | streamEnd => exact absurd rfl he
      | _ => simpa using hrest

end Parser

namespace Parse

variable {s s' : Parser} {n : Node} {tag : Option Tag} {flush : Bool}

/-- From the tokens of a value the parser gives its events and goes on behind it. -/
def Parses (n : Node) : Prop :=
  ∀ (flush : Bool) (s : Parser) (ts rest : List Token),
    s.tokens = ts ++ rest → ts.map Token.kind = n.kinds flush → s.handles = usualHandles →
    (flush = true → Avoids [.item] rest) →
    ∃ e s' es, node true flush s = .ok (e, s') ∧ Parser.Emits s' es (s.behind rest) ∧
      (e :: es).map Prod.fst = n.spelled none

theorem Parses.emits {x : Node} (h : Parses x) (s' : Parser) {ts rest : List Token}
    (hkinds : ts.map Token.kind = x.kinds flush) (hhandles : s'.handles = usualHandles)
    (hrest : flush = true → Avoids [.item] rest) {next : Expect}
    (hevent : event s =
      node true flush { s' with tokens := ts ++ rest, outer := next :: s'.outer }) :
    ∃ es, Parser.Emits s es { s' with tokens := rest, expect := next } ∧
      es.map Prod.fst = x.spelled none := by
  obtain ⟨e, s₁, es, hnode, hemits, hes⟩ := h flush
    { s' with tokens := ts ++ rest, outer := next :: s'.outer } ts rest rfl hkinds hhandles hrest
  exact ⟨e :: es, .step (hevent.trans hnode) hemits, hes⟩

theorem avoids_append {ts : List Token} (hkinds : ts.map Token.kind = n.kinds flush)
    (rest : List Token) {kinds : List TokenKind}
    (h : ∀ kind ∈ kinds, Node.startsValue kind = false ∧ (kind = .item → flush = false)) :
    Avoids kinds (ts ++ rest) := by
  obtain ⟨t, ts, rfl, hkind, -⟩ := Node.exists_tokens_eq hkinds
  refine ⟨t, ts ++ rest, rfl, fun hmem => ?_⟩
  obtain ⟨hnot, hflush⟩ := h _ hmem
  rcases hkind with hkind | ⟨rfl, hkind⟩
  · rw [hnot] at hkind
    cases hkind
  · cases hflush hkind

theorem emits_items {items : List Node} (h : ∀ x ∈ items, Parses x) {first : Bool}
    (henters : Enters first s s') (hexpect : s.expect = .item first) {ts rest : List Token}
    {last : Token} (htokens : s'.tokens = ts ++ last :: rest)
    (hkinds : ts.map Token.kind = Node.kindsItems items) (hlast : last.kind = .blockEnd)
    (hhandles : s'.handles = usualHandles) :
    ∃ es, Parser.Emits s es (s'.left rest) ∧
      es.map Prod.fst = Node.spelledItems items ++ [.listEnd] := by
  induction items generalizing first s s' ts with
  | nil =>
      obtain rfl := List.map_eq_nil_iff.mp hkinds
      exact ⟨_, .step (event_listEnd henters hexpect htokens hlast) (.refl _), rfl⟩
  | cons x items ih =>
      obtain ⟨i, _, rfl, hi, hkinds⟩ := List.map_eq_cons_iff.mp hkinds
      obtain ⟨ts₁, ts₂, rfl, hkinds₁, hkinds₂⟩ := List.map_eq_append_iff.mp hkinds
      rw [List.cons_append, List.append_assoc] at htokens
      have hevent := event_item henters hexpect htokens hi (avoids_append hkinds₁ _ (by decide))
      obtain ⟨es, hemits, hes⟩ := (h x (by simp)).emits s' hkinds₁ hhandles (by simp) hevent
      obtain ⟨es', hemits', hes'⟩ := ih (fun y hy => h y (by simp [hy]))
        (.later { s' with tokens := ts₂ ++ last :: rest, expect := .item false }) rfl rfl hkinds₂
        hhandles
      refine ⟨es ++ es', hemits.append hemits', ?_⟩
      rw [List.map_append, hes, hes', Node.spelledItems, List.append_assoc]

theorem emits_flushItems {items : List Node} (h : ∀ x ∈ items, Parses x)
    (hexpect : s.expect = .flushItem) {ts rest : List Token} (htokens : s.tokens = ts ++ rest)
    (hkinds : ts.map Token.kind = Node.kindsItems items) (hrest : Avoids [.item] rest)
    (hhandles : s.handles = usualHandles) :
    ∃ es, Parser.Emits s es (s.behind rest) ∧
      es.map Prod.fst = Node.spelledItems items ++ [.listEnd] := by
  induction items generalizing s ts with
  | nil =>
      obtain rfl := List.map_eq_nil_iff.mp hkinds
      obtain rfl : s.tokens = rest := htokens
      obtain ⟨p, hevent⟩ := event_flushEnd hexpect hrest
      exact ⟨_, .step hevent (.refl _), rfl⟩
  | cons x items ih =>
      obtain ⟨i, _, rfl, hi, hkinds⟩ := List.map_eq_cons_iff.mp hkinds
      obtain ⟨ts₁, ts₂, rfl, hkinds₁, hkinds₂⟩ := List.map_eq_append_iff.mp hkinds
      rw [List.cons_append, List.append_assoc] at htokens
      have hevent := event_flushItem hexpect htokens hi (avoids_append hkinds₁ _ (by decide))
      obtain ⟨es, hemits, hes⟩ := (h x (by simp)).emits s hkinds₁ hhandles (by simp) hevent
      obtain ⟨es', hemits', hes'⟩ := @ih { s with tokens := ts₂ ++ rest, expect := .flushItem }
        (fun y hy => h y (by simp [hy])) rfl ts₂ rfl hkinds₂ hhandles
      refine ⟨es ++ es', hemits.append hemits', ?_⟩
      rw [List.map_append, hes, hes', Node.spelledItems, List.append_assoc]

theorem leads_bare {t : Token} {rest : List Token} (h : s.tokens = t :: rest)
    (hbare : Bare t.kind) : Leads s none t rest where
  properties := by
    rw [properties_none h hbare, ← h]
  noAlias := ⟨t, rest, h, fun name hname => by rw [hname] at hbare; exact hbare⟩

theorem leads_tag {mark t : Token} {rest : List Token} {name : String}
    (h : s.tokens = mark :: t :: rest) (hmark : mark.kind = .tag "!" (name.toList.map Char.toUInt8))
    (hbare : Bare t.kind) (hhandles : s.handles = usualHandles) :
    Leads s (some (.naming name)) t rest where
  properties := by
    have hbytes : (Tag.ofText "!").append (name.toList.map Char.toUInt8) = .naming name := by
      simp only [Tag.append, Tag.ofText, Tag.naming, Tag.toList_eq_data]
      rfl
    rw [properties_tag h hmark hbare hhandles, hbytes]
  noAlias := ⟨mark, _, h, fun name hname => by simp [hmark] at hname⟩

/-- The same from the first token of a value, when the parser has come to it with a tag. -/
def ParsesBehindTag (n : Node) : Prop :=
  ∀ (flush : Bool) (s : Parser) (tag : Option Tag) (t : Token) (ts rest : List Token),
    Leads s tag t (ts ++ rest) → (t :: ts).map Token.kind = n.kinds flush →
    s.handles = usualHandles → (flush = true → Avoids [.item] rest) →
    ∃ e s' es, node true flush s = .ok (e, s') ∧ Parser.Emits s' es (s.behind rest) ∧
      (e :: es).map Prod.fst = n.spelled tag

theorem ParsesBehindTag.parses (h : ParsesBehindTag n) (huntagged : n.isTagged = false) :
    Parses n := by
  intro flush s ts rest htokens hkinds hhandles hrest
  obtain ⟨t, ts, rfl, -, hbare⟩ := Node.exists_tokens_eq hkinds
  exact h flush s none t ts rest (leads_bare htokens (hbare huntagged)) hkinds hhandles hrest

theorem parsesBehindTag_scalar {text : String} {plain : Bool}
    (hkinds : ∀ flush, n.kinds flush = [.scalar text plain])
    (hspelled : ∀ tag, n.spelled tag = [(.scalar { tag, text, plain } : Event String)]) :
    ParsesBehindTag n := by
  intro flush s tag t ts rest hleads hts hhandles _
  rw [hkinds] at hts
  obtain ⟨ht, hts⟩ := List.cons.inj hts
  obtain rfl := List.map_eq_nil_iff.mp hts
  obtain ⟨p, hnode⟩ := node_scalar hleads ht
  exact ⟨_, _, [], hnode, .refl _, (hspelled tag).symm⟩

theorem parses_text (s : String) : Parses (.text s) :=
  (parsesBehindTag_scalar (fun _ => rfl) fun _ => rfl).parses rfl

theorem emits_fields {fields : List (String × Node)} (h : ∀ field ∈ fields, Parses field.2)
    {first : Bool} (henters : Enters first s s') (hexpect : s.expect = .key first)
    {ts rest : List Token} {last : Token} (htokens : s'.tokens = ts ++ last :: rest)
    (hkinds : ts.map Token.kind = Node.kindsFields fields) (hlast : last.kind = .blockEnd)
    (hhandles : s'.handles = usualHandles) :
    ∃ es, Parser.Emits s es (s'.left rest) ∧
      es.map Prod.fst = Node.spelledFields fields ++ [.mapEnd] := by
  induction fields generalizing first s s' ts with
  | nil =>
      obtain rfl := List.map_eq_nil_iff.mp hkinds
      exact ⟨_, .step (event_mapEnd henters hexpect htokens hlast) (.refl _), rfl⟩
  | cons field fields ih =>
      obtain ⟨key, x⟩ := field
      obtain ⟨i, _, rfl, hi, hkinds⟩ := List.map_eq_cons_iff.mp hkinds
      obtain ⟨k, _, rfl, hk, hkinds⟩ := List.map_eq_cons_iff.mp hkinds
      obtain ⟨v, _, rfl, hv, hkinds⟩ := List.map_eq_cons_iff.mp hkinds
      obtain ⟨ts₁, ts₂, rfl, hkinds₁, hkinds₂⟩ := List.map_eq_append_iff.mp hkinds
      simp only [List.cons_append, List.append_assoc] at htokens
      have hkey := event_key henters hexpect htokens hi ⟨k, _, rfl, by simp [hk]⟩
      have hname : [k].map Token.kind = (Node.text key).kinds true := by simp [hk, Node.kinds]
      obtain ⟨es, hemits, hes⟩ := (parses_text key).emits s' hname
        hhandles (fun _ => ⟨v, _, rfl, by simp [hv]⟩) hkey
      have hvalue := event_value
        (s := { s' with tokens := v :: (ts₁ ++ (ts₂ ++ last :: rest)), expect := .value })
        rfl rfl hv (avoids_append hkinds₁ _ (by decide))
      -- A value that is a flush list ends only where no item follows.
      have hnext : Avoids [.item] (ts₂ ++ last :: rest) := by
        cases fields with
        | nil =>
            obtain rfl := List.map_eq_nil_iff.mp hkinds₂
            exact ⟨last, rest, rfl, by simp [hlast]⟩
        | cons field fields =>
            obtain ⟨i, _, rfl, hi, -⟩ := List.map_eq_cons_iff.mp hkinds₂
            exact ⟨i, _, rfl, by simp [hi]⟩
      obtain ⟨es', hemits', hes'⟩ := (h (key, x) (by simp)).emits { s' with expect := .value }
        hkinds₁ hhandles (fun _ => hnext) hvalue
      obtain ⟨es'', hemits'', hes''⟩ := ih (fun y hy => h y (by simp [hy]))
        (.later { s' with tokens := ts₂ ++ last :: rest, expect := .key false }) rfl rfl hkinds₂
        hhandles
      refine ⟨es ++ (es' ++ es''), hemits.append (hemits'.append hemits''), ?_⟩
      rw [List.map_append, List.map_append, hes, hes', hes'', Node.spelledFields]
      simp [Node.spelled]

theorem parsesBehindTag_list {items : List Node} (h : ∀ x ∈ items, Parses x) :
    ParsesBehindTag (.list items) := by
  intro flush s tag t ts rest hleads hkinds hhandles hrest
  cases items with
  | nil =>
      obtain ⟨ht, hkinds⟩ := List.cons.inj hkinds
      obtain ⟨t', rfl, ht'⟩ := List.map_eq_singleton_iff.mp hkinds
      obtain ⟨p, hnode⟩ := node_collection hleads (.inl ⟨ht, rfl, rfl⟩)
      exact ⟨_, _, _, hnode, .step (event_flowListEnd rfl rfl ht') (.refl _), rfl⟩
  | cons x items =>
      cases flush with
      | true =>
          obtain ⟨p, hnode⟩ := node_collection hleads
            (.inr (.inr (.inl ⟨rfl, (List.cons.inj hkinds).1, rfl, rfl⟩)))
          obtain ⟨es, hemits, hes⟩ := emits_flushItems h
            (s := { s with tokens := t :: (ts ++ rest), expect := .flushItem }) rfl rfl hkinds
            (hrest rfl) hhandles
          exact ⟨_, _, es, hnode, hemits, by rw [List.map_cons, hes]; rfl⟩
      | false =>
          obtain ⟨ht, hkinds⟩ := List.cons.inj hkinds
          obtain ⟨ts, _, rfl, hitems, hend⟩ := List.map_eq_append_iff.mp hkinds
          obtain ⟨last, rfl, hlast⟩ := List.map_eq_singleton_iff.mp hend
          rw [List.append_assoc, List.singleton_append] at hleads
          obtain ⟨p, hnode⟩ := node_collection hleads
            (.inr (.inr (.inr (.inl ⟨rfl, ht, rfl, rfl⟩))))
          obtain ⟨es, hemits, hes⟩ := emits_items h
            (s := { s with tokens := t :: (ts ++ last :: rest), expect := .item true })
            (.first rfl) rfl rfl hitems hlast hhandles
          exact ⟨_, _, es, hnode, hemits, by rw [List.map_cons, hes]; rfl⟩

theorem parsesBehindTag_map {fields : List (String × Node)}
    (h : ∀ field ∈ fields, Parses field.2) : ParsesBehindTag (.map fields) := by
  intro flush s tag t ts rest hleads hkinds hhandles hrest
  cases fields with
  | nil =>
      obtain ⟨ht, hkinds⟩ := List.cons.inj hkinds
      obtain ⟨t', rfl, ht'⟩ := List.map_eq_singleton_iff.mp hkinds
      obtain ⟨p, hnode⟩ := node_collection hleads (.inr (.inl ⟨ht, rfl, rfl⟩))
      exact ⟨_, _, _, hnode, .step (event_flowMapEnd rfl rfl ht') (.refl _), rfl⟩
  | cons field fields =>
      obtain ⟨ht, hkinds⟩ := List.cons.inj hkinds
      obtain ⟨ts, _, rfl, hfields, hend⟩ := List.map_eq_append_iff.mp hkinds
      obtain ⟨last, rfl, hlast⟩ := List.map_eq_singleton_iff.mp hend
      rw [List.append_assoc, List.singleton_append] at hleads
      obtain ⟨p, hnode⟩ := node_collection hleads
        (.inr (.inr (.inr (.inr ⟨rfl, ht, rfl, rfl⟩))))
      obtain ⟨es, hemits, hes⟩ := emits_fields h
        (s := { s with tokens := t :: (ts ++ last :: rest), expect := .key true })
        (.first rfl) rfl rfl hfields hlast hhandles
      exact ⟨_, _, es, hnode, hemits, by rw [List.map_cons, hes]; rfl⟩

theorem parses_tagged {name : String} {x : Node} (h : ParsesBehindTag x)
    (huntagged : x.isTagged = false) : Parses (.tagged name x) := by
  intro flush s ts rest htokens hkinds hhandles hrest
  obtain ⟨mark, ts, rfl, hmark, hkinds⟩ := List.map_eq_cons_iff.mp hkinds
  obtain ⟨t, ts, rfl, -, hbare⟩ := Node.exists_tokens_eq hkinds
  exact h flush s _ t ts rest (leads_tag htokens hmark (hbare huntagged) hhandles) hkinds hhandles
    hrest

theorem parses_of_legible (h : n.Legible) :
    (n.isTagged = false → ParsesBehindTag n) ∧ Parses n := by
  -- Behind a tag there is no second one, so there the induction needs the form that has read it.
  have hboth {x : Node} (huntagged : x.isTagged = false) (hx : ParsesBehindTag x) :
      (x.isTagged = false → ParsesBehindTag x) ∧ Parses x :=
    ⟨fun _ => hx, hx.parses huntagged⟩
  induction h with
  | word | text => exact hboth rfl (parsesBehindTag_scalar (fun _ => rfl) fun _ => rfl)
  | list _ ih => exact hboth rfl (parsesBehindTag_list fun x hx => (ih x hx).2)
  | map _ _ ih => exact hboth rfl (parsesBehindTag_map fun field hfield => (ih field hfield).2)
  | tagged _ huntagged _ ih =>
      exact ⟨fun h => (by cases h), parses_tagged (ih.1 huntagged) huntagged⟩

end Parse

/-! ## Whole documents -/

/-- Events of values without anchors and aliases. -/
inductive Event.Simple {Reference : Type} : Event Reference → Prop where
  | scalar (tag : Option Tag) (text : String) (plain : Bool) :
      Simple (.scalar { tag, text, plain })
  | listStart (tag : Option Tag) : Simple (.listStart { tag })
  | listEnd : Simple .listEnd
  | mapStart (tag : Option Tag) : Simple (.mapStart { tag })
  | mapEnd : Simple .mapEnd

/-- The same event, where aliases refer to values in another way. -/
def Event.relabel {A B : Type} (f : A → B) : Event A → Event B
  | .streamEnd => .streamEnd
  | .documentStart => .documentStart
  | .documentEnd => .documentEnd
  | .alias target => .alias (f target)
  | .scalar s => .scalar s
  | .listStart p => .listStart p
  | .listEnd => .listEnd
  | .mapStart p => .mapStart p
  | .mapEnd => .mapEnd

namespace Node

variable {n : Node}

theorem exists_of_mem_items {A : Type} {e : Event A} {items : List Node}
    (h : e ∈ spelledItems items) : ∃ x ∈ items, e ∈ x.spelled none := by
  induction items with
  | nil => cases h
  | cons x items ih =>
      rcases List.mem_append.mp h with h | h
      · exact ⟨x, by simp, h⟩
      · obtain ⟨y, hy, h⟩ := ih h
        exact ⟨y, by simp [hy], h⟩

theorem exists_of_mem_fields {A : Type} {e : Event A} {fields : List (String × Node)}
    (h : e ∈ spelledFields fields) : e.Simple ∨ ∃ field ∈ fields, e ∈ field.2.spelled none := by
  induction fields with
  | nil => cases h
  | cons field fields ih =>
      rcases List.mem_cons.mp h with rfl | h
      · exact .inl (.scalar ..)
      · rcases List.mem_append.mp h with h | h
        · exact .inr ⟨field, by simp, h⟩
        · refine (ih h).imp_right ?_
          rintro ⟨y, hy, h⟩
          exact ⟨y, by simp [hy], h⟩

theorem simple_of_mem {A : Type} (h : n.Legible) {tag : Option Tag} {e : Event A}
    (he : e ∈ n.spelled tag) : e.Simple := by
  induction h generalizing tag with
  | word | text =>
      obtain rfl := List.mem_singleton.mp he
      exact .scalar ..
  | list _ ih =>
      simp only [spelled, List.mem_append, List.mem_cons, List.not_mem_nil, or_false] at he
      rcases he with (rfl | he) | rfl
      · exact .listStart tag
      · obtain ⟨x, hx, he⟩ := exists_of_mem_items he
        exact ih x hx he
      · exact .listEnd
  | map _ _ ih =>
      simp only [spelled, List.mem_append, List.mem_cons, List.not_mem_nil, or_false] at he
      rcases he with (rfl | he) | rfl
      · exact .mapStart tag
      · rcases exists_of_mem_fields he with he | ⟨field, hfield, he⟩
        · exact he
        · exact ih field hfield he
      · exact .mapEnd
  | tagged _ _ _ ih => exact ih he

theorem map_relabel_items {A B : Type} {f : A → B} {items : List Node}
    (h : ∀ x ∈ items, (x.spelled none).map (Event.relabel f) = x.spelled none) :
    (spelledItems items).map (Event.relabel f) = spelledItems items := by
  induction items with
  | nil => rfl
  | cons x items ih =>
      rw [spelledItems, List.map_append, h x (by simp), ih fun y hy => h y (by simp [hy]),
        ← spelledItems]

theorem map_relabel_fields {A B : Type} {f : A → B} {fields : List (String × Node)}
    (h : ∀ field ∈ fields,
      (field.2.spelled none).map (Event.relabel f) = field.2.spelled none) :
    (spelledFields fields).map (Event.relabel f) = spelledFields fields := by
  induction fields with
  | nil => rfl
  | cons field fields ih =>
      have hrest := ih fun y hy => h y (by simp [hy])
      simp [spelledFields, h field (by simp), hrest, Event.relabel]

theorem map_relabel {A B : Type} (f : A → B) (h : n.Legible) (tag : Option Tag) :
    (n.spelled tag).map (Event.relabel f) = n.spelled tag := by
  induction h generalizing tag with
  | word | text => rfl
  | list _ ih => simp [spelled, map_relabel_items fun x hx => ih x hx none, Event.relabel]
  | map _ _ ih =>
      simp [spelled, map_relabel_fields fun field hfield => ih field hfield none, Event.relabel]
  | tagged _ _ _ ih => exact ih _

theorem length_spelledItems_le {items : List Node}
    (h : ∀ x ∈ items,
      (x.spelled none : List (Event String)).length ≤ 2 * (x.kinds false).length) :
    (spelledItems items : List (Event String)).length + 2 * items.length ≤
      2 * (kindsItems items).length := by
  induction items with
  | nil => simp [spelledItems]
  | cons x items ih =>
      have hx := h x (by simp)
      have hrest := ih fun y hy => h y (by simp [hy])
      simp only [spelledItems, kindsItems, List.length_append, List.length_cons]
      omega

theorem length_spelledFields_le {fields : List (String × Node)}
    (h : ∀ field ∈ fields,
      (field.2.spelled none : List (Event String)).length ≤ 2 * (field.2.kinds true).length) :
    (spelledFields fields : List (Event String)).length ≤ 2 * (kindsFields fields).length := by
  induction fields with
  | nil => simp [spelledFields]
  | cons field fields ih =>
      have hx := h field (by simp)
      have hrest := ih fun y hy => h y (by simp [hy])
      simp only [spelledFields, kindsFields, List.length_append, List.length_cons]
      omega

/-- No token has more than two events. -/
theorem length_spelled_le (h : n.Legible) (tag : Option Tag) (flush : Bool) :
    (n.spelled tag : List (Event String)).length ≤ 2 * (n.kinds flush).length := by
  induction h generalizing tag flush with
  | word | text => simp [spelled, kinds]
  | @list items _ ih =>
      have hitems := length_spelledItems_le fun x hx => ih x hx none false
      cases items with
      | nil => simp [spelled, spelledItems, kinds]
      | cons x items =>
          -- A flush list has events for its start and its end, but only the tokens of its items.
          cases flush <;> simp [spelled, kinds] at hitems ⊢ <;> omega
  | @map fields _ _ ih =>
      have hfields := length_spelledFields_le fun field hfield => ih field hfield none true
      cases fields with
      | nil => simp [spelled, spelledFields, kinds]
      | cons field fields =>
          simp [spelled, kinds] at hfields ⊢
          omega
  | @tagged name _ _ _ _ ih =>
      have hx := ih (some (.naming name)) flush
      simp only [spelled, kinds, List.length_cons]
      omega

end Node

namespace Parser

variable {n : Node}

open Parse

theorem event_documentStart {s : Parser} (hexpect : s.expect = .documentStart true) {t : Token}
    {ts : List Token} (htokens : s.tokens = t :: ts) (ht : Node.startsValue t.kind = true) :
    event s = .ok ((.documentStart, t.start),
      { s with expect := .node, outer := .documentEnd :: s.outer, handles := usualHandles }) := by
  unfold event
  rw [bind_ok get_ok, hexpect]
  dsimp only
  unfold documentStart
  rw [if_neg (by decide)]
  dsimp only
  rw [bind_ok (peek_cons htokens)]
  cases hkind : t.kind <;> first | rfl | (rw [hkind] at ht; cases ht)

theorem event_documentEnd {s : Parser} (hexpect : s.expect = .documentEnd) {t : Token}
    {ts : List Token} (htokens : s.tokens = t :: ts) (ht : t.kind ≠ .documentEnd) :
    event s = .ok ((.documentEnd, t.start), { s with expect := .documentStart false }) := by
  unfold event
  rw [bind_ok get_ok, hexpect]
  dsimp only
  rw [bind_ok (peek_cons htokens), if_neg ht]
  rfl

theorem event_streamEnd {s : Parser} (hexpect : s.expect = .documentStart false) {t : Token}
    {ts : List Token} (htokens : s.tokens = t :: ts) (ht : t.kind = .streamEnd) :
    event s = .ok ((.streamEnd, t.start), s) := by
  have hdrop : s.tokens.dropWhile (·.kind = .documentEnd) = s.tokens := by
    rw [htokens, List.dropWhile_cons_of_neg (by simp [ht])]
  unfold event
  rw [bind_ok get_ok]
  conv_lhs => rw [hexpect]
  dsimp only
  unfold documentStart
  rw [if_pos (by rfl), bind_ok (modify_ok _), hdrop]
  dsimp only
  rw [bind_ok (peek_cons htokens), ht]
  rfl

theorem run_streamEnd {s s' : Parser} {p : Position} (h : event s = .ok ((.streamEnd, p), s'))
    (fuel : Nat) (read : List (Located String)) :
    run (fuel + 1) read s = (((.streamEnd, p) :: read).reverse, none) := by
  rw [run, h]

/-- From the tokens of a value the parser gives the events of a document. -/
theorem emits_document (h : n.Legible) {ts : List Token}
    (hkinds : ts.map Token.kind = n.kinds false) {last : Token} (hlast : last.kind = .streamEnd)
    (fault : Fault) :
    ∃ es, Emits { tokens := ts ++ [last], fault } es
        { tokens := [last], fault, expect := .documentStart false, handles := usualHandles } ∧
      es.map Prod.fst = .documentStart :: n.spelled none ++ [.documentEnd] := by
  obtain ⟨t, more, rfl, ht, -⟩ := Node.exists_tokens_eq hkinds
  have hstart := event_documentStart (s := { tokens := t :: more ++ [last], fault }) rfl rfl
    (ht.resolve_right (by simp))
  obtain ⟨e, s', es, hnode, hemits, hes⟩ := (parses_of_legible h).2 false
    { tokens := t :: more ++ [last], fault, expect := .node, outer := [.documentEnd],
      handles := usualHandles } (t :: more) [last] rfl hkinds rfl (by simp)
  have hstop := event_documentEnd
    (s := { tokens := [last], fault, expect := .documentEnd, handles := usualHandles }) rfl rfl
    (by simp [hlast])
  refine ⟨_, (Emits.step hstart (.step hnode hemits)).append (.step hstop (.refl _)), ?_⟩
  rw [List.map_append, List.map_cons, hes]
  rfl

/-- There is fuel for all events of a document. -/
theorem run_document (h : n.Legible) {ts : List Token}
    (hkinds : ts.map Token.kind = n.kinds false ++ [.streamEnd]) (fault : Fault) :
    ∃ es, run (4 * ts.length + 4) [] { tokens := ts, fault } = (es, none) ∧
      es.map Prod.fst = .documentStart :: n.spelled none ++ [.documentEnd, .streamEnd] := by
  obtain ⟨ts, _, rfl, hvalue, hend⟩ := List.map_eq_append_iff.mp hkinds
  obtain ⟨last, rfl, hlast⟩ := List.map_eq_singleton_iff.mp hend
  obtain ⟨es, hemits, hes⟩ := emits_document h hvalue hlast fault
  have hlength : es.length + 1 ≤ 4 * (ts ++ [last]).length + 4 := by
    have hle := Node.length_spelled_le h none false
    have hvalue' := congrArg List.length hvalue
    have hes' := congrArg List.length hes
    simp only [List.length_map, List.length_append, List.length_cons, List.length_nil] at *
    omega
  obtain ⟨fuel, hfuel⟩ := Nat.exists_eq_add_of_le hlength
  -- The run goes on until the stream ends, which no event of the document says.
  have hnoEnd : ∀ e ∈ es, e.1 ≠ .streamEnd := by
    intro e he hend
    have hmem := List.mem_map_of_mem he (f := Prod.fst)
    rw [hes, hend] at hmem
    simp only [List.mem_append, List.mem_cons, List.not_mem_nil, or_false, reduceCtorEq,
      false_or] at hmem
    cases Node.simple_of_mem h hmem
  have hlastEvent := event_streamEnd
    (s := { tokens := [last], fault, expect := .documentStart false, handles := usualHandles })
    rfl rfl hlast
  have hsum : 4 * (ts ++ [last]).length + 4 = es.length + (fuel + 1) := by
    omega
  refine ⟨es ++ [(.streamEnd, last.start)], ?_, ?_⟩
  · rw [hsum, hemits.run hnoEnd, run_streamEnd hlastEvent]
    simp
  · rw [List.map_append, hes]
    simp

end Parser

namespace Document

variable {n : Node}

/-- The events of a value without anchors and aliases are kept as they are. -/
theorem load_simple {es : List (Located String)} (h : ∀ e ∈ es, e.1.Simple) (fault : Option Fault)
    (d : Progress) (rest : List (Located String)) :
    load fault d (es ++ rest) =
      load fault { d with
        read := (es.map fun e => (e.1.relabel fun _ => 0, e.2)).reverse ++ d.read
        count := d.count + es.length } rest := by
  induction es generalizing d with
  | nil => rfl
  | cons e es ih =>
      obtain ⟨e, p⟩ := e
      have he : e.Simple := h (e, p) (by simp)
      have hrest := fun d => ih (fun e he => h e (by simp [he])) d
      cases he <;>
        simp [load, hrest, Progress.add, Progress.anchor, Event.relabel, Nat.add_assoc,
          Nat.add_comm]

theorem load_document (h : n.Legible) {es : List (Located String)}
    (hes : es.map Prod.fst = .documentStart :: n.spelled none ++ [.documentEnd, .streamEnd]) :
    (load none {} es).events.map Prod.fst = n.spelled none ∧ (load none {} es).finish = .ok () := by
  obtain ⟨_, _, rfl, hfront, hend⟩ := List.map_eq_append_iff.mp hes
  obtain ⟨⟨_, p⟩, es, rfl, rfl, hvalue⟩ := List.map_eq_cons_iff.mp hfront
  obtain ⟨⟨_, q⟩, _, rfl, rfl, hlast⟩ := List.map_eq_cons_iff.mp hend
  obtain ⟨⟨_, r⟩, rfl, rfl⟩ := List.map_eq_singleton_iff.mp hlast
  have hsimple : ∀ e ∈ es, e.1.Simple := fun e he =>
    Node.simple_of_mem h (hvalue ▸ List.mem_map_of_mem he)
  rw [List.cons_append, load, load_simple hsimple]
  refine ⟨?_, rfl⟩
  simp only [load, Progress.finish, List.append_nil, List.reverse_reverse, List.map_map]
  rw [← Node.map_relabel (fun _ => 0) h none, ← hvalue, List.map_map]
  rfl

/-- A text with the tokens of a value holds the events of that value and nothing else. -/
theorem ofText_of_tokens (h : n.Legible) {text : String} {ts : List Token}
    (htokens : tokens text = (ts, none))
    (hkinds : ts.map Token.kind = n.kinds false ++ [.streamEnd]) :
    (ofText text).events.map Prod.fst = n.spelled none ∧ (ofText text).finish = .ok () := by
  obtain ⟨es, hrun, hes⟩ := Parser.run_document h hkinds { problem := "" }
  have hevents : Markup.events text = (es, none) := by
    rw [Markup.events, htokens]
    exact hrun
  rw [ofText, hevents]
  exact load_document h hes

end Document

end Backend.Markup
