import Backend.Document.File
import Backend.Proofs.Format
import Mathlib

/-! # Written values as events

What a written value comes to when its text is read: a scalar is one event, and a collection is
between two of them. The reader of tree files keeps the collections that are open on a stack, and
goes from the events of a value straight to what it does behind that value.
-/

namespace Backend

/-! ## Scalars -/

namespace Numeral

theorem digit?_of_isDigit {c : Char} (h : c.isDigit = true) :
    digit? 10 c = some (c.toNat - '0'.toNat) := by
  have hlt : c.toNat - '0'.toNat < 10 := by
    have hbounds := Char.isDigit_iff_toNat.mp h
    have hzero : '0'.toNat = 48 := rfl
    have hnine : '9'.toNat = 57 := rfl
    omega
  simp only [digit?, h, if_true, Option.filter, decide_eq_true hlt]

theorem value?_of_digits {cs : List Char} (hne : cs ≠ []) (hdigits : ∀ c ∈ cs, c.isDigit = true) :
    value? 10 cs = some (Nat.ofDigitChars 10 cs 0) := by
  have hfold (n : Nat) : cs.foldlM (fun n c => (digit? 10 c).map (10 * n + ·)) n =
      some (Nat.ofDigitChars 10 cs n) := by
    clear hne
    induction cs generalizing n with
    | nil => rfl
    | cons c cs ih =>
        rw [List.foldlM_cons, digit?_of_isDigit (hdigits c (by simp)), Nat.ofDigitChars_cons]
        exact ih (fun c hc => hdigits c (by simp [hc])) _
  cases cs with
  | nil => exact absurd rfl hne
  | cons c cs => exact hfold 0

theorem eq_zero_of_head_toDigits {n : Nat} (h : (Nat.toDigits 10 n).head? = some '0') : n = 0 := by
  induction n using Nat.strongRecOn with
  | ind n ih =>
      by_cases hn : n < 10
      · rw [Nat.toDigits_of_lt_base hn] at h
        interval_cases n <;> simp_all [Nat.digitChar]
      · rw [Nat.toDigits_of_base_le (by decide) (by omega),
          List.head?_append_of_ne_nil _ Nat.toDigits_ne_nil] at h
        -- The number without its last digit starts with a zero too, but is not zero.
        have hfront := ih (n / 10) (by omega) h
        omega

/-- Decimal digits stand for their number, and look like nothing else. -/
theorem digits_read (n : Nat) :
    value? 10 (Nat.toDigits 10 n) = some n ∧ marked? (Nat.toDigits 10 n) = none ∧
      dropSign (Nat.toDigits 10 n) = Nat.toDigits 10 n ∧ isPadded (Nat.toDigits 10 n) = false ∧
      (Nat.toDigits 10 n).head? ≠ some '-' := by
  have hdigits : ∀ c ∈ Nat.toDigits 10 n, c.isDigit = true := fun c hc =>
    Nat.isDigit_of_mem_toDigits (by decide) (by decide) hc
  have hvalue := value?_of_digits Nat.toDigits_ne_nil hdigits
  rw [Nat.ofDigitChars_ten_toDigits] at hvalue
  have hzero : (Nat.toDigits 10 n).head? = some '0' → Nat.toDigits 10 n = ['0'] := by
    intro h
    rw [eq_zero_of_head_toDigits h]
    rfl
  cases hcs : Nat.toDigits 10 n with
  | nil => exact absurd hcs Nat.toDigits_ne_nil
  | cons c rest =>
      rw [hcs] at hdigits hvalue hzero
      have hc := hdigits c (by simp)
      have hsign : c ≠ '-' ∧ c ≠ '+' := by
        constructor <;> (rintro rfl; cases hc)
      have hdrop : dropSign (c :: rest) = c :: rest := by
        unfold dropSign
        split <;> simp_all
      have hmarked : marked? (c :: rest) = none := by
        unfold marked?
        split
        · simp_all
        · simp_all
        · simp_all
        · rfl
      refine ⟨hvalue, hmarked, hdrop, ?_, by simpa using hsign.1⟩
      unfold isPadded
      rw [hdrop]
      split <;> simp_all

theorem integer?_toString {n : Int} (hlow : -0x8000_0000_0000_0000 ≤ n)
    (hhigh : n < 0x1_0000_0000_0000_0000) : integer? (toString n).toList = some n := by
  rw [Int.toString_eq_repr, Int.repr_eq_if]
  split
  next hn =>
    obtain ⟨hvalue, hmarked, hdrop, hpadded, hsign⟩ := digits_read n.toNat
    have hle : n.toNat < Nat.pow 2 128 := by
      norm_num
      omega
    rw [Nat.toList_repr, integer?, hdrop, hmarked, hpadded, hvalue]
    simp only [hsign, Option.none_or, Bool.false_eq_true, if_false, Option.bind_eq_bind,
      Option.bind_some, hle, if_true]
    rw [Int.toNat_of_nonneg hn]
  next hn =>
    obtain ⟨hvalue, hmarked, hdrop, hpadded, -⟩ := digits_read (-n).toNat
    have hle : (-n).toNat ≤ Nat.pow 2 127 := by
      norm_num
      omega
    have hpadded' : isPadded ('-' :: Nat.toDigits 10 (-n).toNat) = false := by
      rw [isPadded, hdrop] at hpadded
      exact hpadded
    rw [String.toList_append, Nat.toList_repr]
    change integer? ('-' :: Nat.toDigits 10 (-n).toNat) = _
    have hmarked' : marked? (dropSign ('-' :: Nat.toDigits 10 (-n).toNat)) = none := hmarked
    have hvalue' : value? 10 (dropSign ('-' :: Nat.toDigits 10 (-n).toNat)) = some (-n).toNat :=
      hvalue
    rw [integer?, hmarked', hpadded', hvalue']
    simp only [Option.none_or, Bool.false_eq_true, if_false, Option.bind_eq_bind, Option.bind_some,
      hle, if_true, List.head?_cons]
    rw [Int.toNat_of_nonneg (by omega), Int.neg_neg]

end Numeral

namespace Markup

theorem Value.ofPlain_toString {n : Int} (hlow : -0x8000_0000_0000_0000 ≤ n)
    (hhigh : n < 0x1_0000_0000_0000_0000) : Value.ofPlain (toString n) = .int n := by
  have hinteger := Numeral.integer?_toString hlow hhigh
  have hother {words : List String}
      (h : (words.all fun s => (Numeral.integer? s.toList).isNone) = true) :
      words.contains (toString n) = false := by
    by_contra hmem
    rw [Bool.not_eq_false, List.contains_iff_mem] at hmem
    have hnone := List.all_eq_true.mp h _ hmem
    rw [hinteger] at hnone
    cases hnone
  have hne : toString n ≠ "" := by
    intro hempty
    rw [hempty] at hinteger
    cases hinteger
  have hnull : Value.null? (toString n) = none := by
    rw [Value.null?, hother (by decide)]
    rfl
  have hbool : Value.bool? (toString n) = none := by
    rw [Value.bool?, hother (by decide), hother (by decide)]
    rfl
  simp only [Value.ofPlain, hne, hnull, hbool, hinteger, decide_false, Option.isSome_none,
    Bool.or_false, Bool.false_eq_true, if_false]

theorem Value.float?_ne_text (s t : String) : Value.float? s ≠ some (.text t) := by
  unfold Value.float?
  split
  · simp
  · split
    · simp
    · split
      · simp
      · cases Numeral.finite? s.toList <;> simp

/-- A plain scalar that is a text is the text that is written. -/
theorem Value.ofPlain_eq_text {s t : String} (h : Value.ofPlain s = .text t) : t = s := by
  unfold Value.ofPlain at h
  split at h
  · cases h
  · split at h
    · cases h
    · split at h
      · cases h
      · split at h
        · exact (Value.text.inj h).symm
        · cases hfloat : Value.float? s with
          | none =>
              rw [hfloat] at h
              exact (Value.text.inj h).symm
          | some v =>
              rw [hfloat] at h
              exact absurd (hfloat.trans (congrArg some h)) (Value.float?_ne_text s t)

theorem toNat_of_isNameChar {c : Char} (h : isNameChar c = true) :
    0x20 < c.toNat ∧ c.toNat < 0x7f := by
  simp only [isNameChar, Char.isAlphanum, Char.isAlpha, Char.isUpper, Char.isLower, Char.isDigit,
    Bool.or_eq_true, Bool.and_eq_true, decide_eq_true_eq] at h
  have hrange {low high : UInt32} (hlow : 0x20 < low.toNat) (hhigh : high.toNat < 0x7f)
      (h : c.val ≥ low ∧ c.val ≤ high) : 0x20 < c.toNat ∧ c.toNat < 0x7f :=
    ⟨Nat.lt_of_lt_of_le hlow (UInt32.le_iff_toNat_le.mp h.1),
      Nat.lt_of_le_of_lt (UInt32.le_iff_toNat_le.mp h.2) hhigh⟩
  rcases h with (((h | h) | h) | rfl) | rfl
  · exact hrange (by decide) (by decide) h
  · exact hrange (by decide) (by decide) h
  · exact hrange (by decide) (by decide) h
  · decide
  · decide

/-- The tag that is written for the name of an alternative. -/
def Tag.naming (name : String) : Tag :=
  { bytes := '!'.toUInt8 :: name.toList.map Char.toUInt8 }

namespace Tag

variable {name : String}

theorem isLocal_naming : (naming name).isLocal = true := rfl

theorem toList_eq_data (bs : ByteArray) : bs.toList = bs.data.toList := by
  have hloop (i : Nat) (r : List UInt8) :
      ByteArray.toList.loop bs i r = r.reverse ++ bs.data.toList.drop i := by
    fun_induction ByteArray.toList.loop bs i r with
    | case1 i r hi ih =>
        have hlt : i < bs.data.toList.length := by simpa using hi
        have hget : bs.get! i = bs.data.toList[i] := by
          simp [ByteArray.get!, getElem!_pos bs.data i hi]
        rw [ih, hget, List.drop_eq_getElem_cons hlt, List.reverse_cons, List.append_assoc,
          List.singleton_append]
    | case2 i r hi =>
        have hle : bs.data.toList.length ≤ i := by
          simpa using hi
        rw [List.drop_eq_nil_of_le hle, List.append_nil]
  exact hloop 0 []

theorem naming_ne_standard (other : String) : naming name ≠ standard other := by
  intro h
  have hnaming : (naming name).bytes.head? = some '!'.toUInt8 := rfl
  have hstandard : (standard other).bytes.head? = some 't'.toUInt8 := by
    simp only [standard, ofText, toList_eq_data, String.toUTF8_eq_toByteArray,
      String.toByteArray_append, ByteArray.toList_data_append]
    rfl
  rw [h, hstandard] at hnaming
  exact absurd hnaming (by decide)

theorem utf8EncodeChar_of_isNameChar {c : Char} (h : isNameChar c = true) :
    String.utf8EncodeChar c = [c.toUInt8] := by
  have hle : c.val.toNat ≤ 0x7f := (toNat_of_isNameChar h).2.le
  simp only [String.utf8EncodeChar, hle, if_true]
  rfl

theorem alternative?_naming (hne : name ≠ "") (hchars : ∀ c ∈ name.toList, isNameChar c = true) :
    (naming name).alternative? = some name := by
  have hlength : (naming name).bytes.length ≠ 1 := by
    simpa [naming] using hne
  have hbytes : ByteArray.mk (name.toList.map Char.toUInt8).toArray = name.toByteArray := by
    have hencode : name.toList.flatMap String.utf8EncodeChar = name.toList.map Char.toUInt8 := by
      rw [List.map_eq_flatMap]
      exact List.flatMap_congr fun c hc => utf8EncodeChar_of_isNameChar (hchars c hc)
    rw [← String.utf8Encode_toList, List.utf8Encode, hencode]
    exact ByteArray.ext List.data_toByteArray.symm
  rw [alternative?, isLocal_naming, if_pos rfl, if_neg hlength, text?]
  simp only [naming, List.tail_cons, hbytes, String.fromUTF8?]
  rw [dif_pos name.isValidUTF8]
  rfl

end Tag

theorem Scalar.fits_of_style {s : String} (h : Scalar.style s = .plain) :
    Scalar.isOtherKind s = false ∧ s.toList.any isBreak = false ∧
      Scalar.fitsBlock s.toList = true := by
  simp only [Scalar.style] at h
  split at h
  · cases h
  · split at h
    · split at h <;> cases h
    · split at h
      · cases h
      · split at h
        · cases h
        · next hnot => simpa [and_assoc] using hnot

theorem Scalar.ofPlain_of_style {s : String} (h : Scalar.style s = .plain) :
    Value.ofPlain s = .text s := by
  obtain ⟨hkind, -, -⟩ := Scalar.fits_of_style h
  simp only [Scalar.isOtherKind, Bool.or_eq_false_iff] at hkind
  cases hvalue : Value.ofPlain s with
  | text t => rw [Value.ofPlain_eq_text hvalue]
  | _ => simp_all

namespace Node

mutual

/-- The events of a value with the given tag. -/
def spelled {Reference : Type} (tag : Option Tag) : Node → List (Event Reference)
  | .word s => [.scalar { tag, text := s }]
  | .text s => [.scalar { tag, text := s, plain := Scalar.style s = .plain }]
  | .list items => .listStart { tag } :: spelledItems items ++ [.listEnd]
  | .map fields => .mapStart { tag } :: spelledFields fields ++ [.mapEnd]
  | .tagged name x => x.spelled (some (.naming name))

def spelledItems {Reference : Type} : List Node → List (Event Reference)
  | [] => []
  | x :: rest => x.spelled none ++ spelledItems rest

def spelledFields {Reference : Type} : List (String × Node) → List (Event Reference)
  | [] => []
  | (key, x) :: rest =>
      .scalar { text := key, plain := Scalar.style key = .plain } ::
        (x.spelled none ++ spelledFields rest)

end

mutual

/-- How many collections are open at once while a value is read. -/
def depth : Node → Nat
  | .word _ | .text _ => 0
  | .list items => depthItems items + 1
  | .map fields => depthFields fields + 1
  | .tagged _ x => x.depth

def depthItems : List Node → Nat
  | [] => 0
  | x :: rest => max x.depth (depthItems rest)

def depthFields : List (String × Node) → Nat
  | [] => 0
  | (_, x) :: rest => max x.depth (depthFields rest)

end

end Node

end Markup

open Markup (Document Located Tag)

/-! ## Documents that can be read back -/

namespace Doc

/-- The document is not an alternative that holds something. -/
def Untagged (x : Doc) : Prop := ∀ key y, x = .obj [(key, y)] → isAlternative key = false

end Doc

/-- A name that a tag can give to an alternative. -/
structure AlternativeName (name : String) : Prop where
  capital : isAlternative name = true
  chars : ∀ c ∈ name.toList, Markup.isNameChar c = true

instance (name : String) : Decidable (AlternativeName name) :=
  have : Decidable (∀ c ∈ name.toList, Markup.isNameChar c = true) := List.decidableBAll _ _
  decidable_of_iff (isAlternative name = true ∧ ∀ c ∈ name.toList, Markup.isNameChar c = true)
    ⟨fun h => ⟨h.1, h.2⟩, fun h => ⟨h.1, h.2⟩⟩

theorem AlternativeName.ne_empty {name : String} (h : AlternativeName name) : name ≠ "" := by
  rintro rfl
  exact absurd h.capital (by decide)

namespace Markup.Scalar

/-- The text can be the name of a field, and stands there without quotes. -/
structure NamesField (key : String) : Prop where
  isKey : isKey key = true
  plain : style key = .plain

instance (key : String) : Decidable (NamesField key) :=
  decidable_of_iff (isKey key = true ∧ style key = .plain)
    ⟨fun h => ⟨h.1, h.2⟩, fun h => ⟨h.1, h.2⟩⟩

end Markup.Scalar

/-- Documents that can be told from others by how they are written: numbers are words, alternatives
have names that a tag can hold, and none of them directly holds another one. -/
inductive Doc.Writable : Doc → Prop where
  | null : Writable .null
  | bool (b : Bool) : Writable (.bool b)
  | int {n : Int} (hlow : -0x8000_0000_0000_0000 ≤ n) (hhigh : n < 0x1_0000_0000_0000_0000) :
      Writable (.int n)
  | str (s : String) : Writable (.str s)
  | arr {items : List Doc} (h : ∀ x ∈ items, Writable x) : Writable (.arr items)
  | obj {fields : List (String × Doc)} (huntagged : Untagged (.obj fields))
      (hkeys : ∀ field ∈ fields, Markup.Scalar.NamesField field.1)
      (h : ∀ field ∈ fields, Writable field.2) : Writable (.obj fields)
  | tagged {name : String} {x : Doc} (hname : AlternativeName name) (huntagged : x.Untagged)
      (h : Writable x) : Writable (.tagged name x)

theorem Doc.toNode_obj {fields : List (String × Doc)} (h : Untagged (.obj fields)) :
    (Doc.obj fields).toNode = .map (toFields fields) := by
  unfold toNode
  split <;> try simp_all
  next key x hfields =>
    subst hfields
    rw [if_neg]
    · rfl
    · simp [h key x rfl]

theorem Doc.toNode_tagged {name : String} (h : AlternativeName name) (x : Doc) :
    (Doc.tagged name x).toNode = .tagged name x.toNode := by
  simp [Doc.tagged, toNode, h.capital]

/-! ## The reader of tree files -/

namespace TreeFile

/-- A tag that a value of its own can have: none, or one for an alternative. -/
inductive Tagged (x : Doc) : Option Tag → Doc → Prop where
  | none : Tagged x none x
  | some {name : String} (hname : AlternativeName name) (huntagged : x.Untagged) :
      Tagged x (some (.naming name)) (.tagged name x)

/-- The innermost open collection waits for a value, not for a key. -/
def AwaitsValue (stack : List Pending) : Prop :=
  ∀ tag fields outer, stack ≠ .map tag fields none :: outer

variable {d : Document} {x y : Doc} {tag : Option Tag} {stack : List Pending}

theorem Tagged.withTag_eq (h : Tagged x tag y) : withTag tag x = y := by
  cases h with
  | none => rfl
  | some hname _ =>
      simp [withTag, Tag.alternative?_naming hname.ne_empty hname.chars]

theorem Tagged.ofScalar_eq {v : Markup.Value} {text : String} {plain : Bool}
    (h : Tagged x tag y) (hx : ofValue v = x)
    (hv : (if plain then Markup.Value.ofPlain text else .text text) = v) :
    ofScalar { tag, text, plain } = y := by
  have hvalue : Markup.ScalarValue.value { tag, text, plain } = .ok v := by
    cases h with
    | none => simp [Markup.ScalarValue.value, hv]
    | some => simp [Markup.ScalarValue.value, hv, Tag.naming_ne_standard, Tag.isLocal_naming]
  rw [ofScalar, hvalue]
  simp only [hx, h.withTag_eq]

theorem value_scalar (hstack : AwaitsValue stack) (s : Markup.ScalarValue) (p : Markup.Position)
    (rest : List (Located Nat)) :
    value d ((.scalar s, p) :: rest) stack = afterValue d rest (ofScalar s) stack := by
  rcases stack with _ | ⟨_ | ⟨tag, fields, _ | key⟩, outer⟩
  · rw [value]
    simp
  · rw [value]
    simp
  · exact absurd rfl (hstack tag fields outer)
  · rw [value]
    simp

/-- From the events of a value the reader goes to what it does behind the value. -/
def ReadBack (d : Document) (x : Doc) : Prop :=
  ∀ ⦃tag : Option Tag⦄ ⦃y : Doc⦄ ⦃es rest : List (Located Nat)⦄ ⦃stack : List Pending⦄,
    Tagged x tag y → es.map Prod.fst = x.toNode.spelled tag →
    stack.length + x.toNode.depth ≤ depthLimit → AwaitsValue stack →
    value d (es ++ rest) stack = afterValue d rest y stack

theorem value_items {items read : List Doc} (h : ∀ x ∈ items, ReadBack d x)
    {es rest : List (Located Nat)}
    (hes : es.map Prod.fst = Markup.Node.spelledItems (Doc.toNodes items))
    (hdepth : stack.length + 1 + Markup.Node.depthItems (Doc.toNodes items) ≤ depthLimit) :
    value d (es ++ rest) (.list tag read :: stack) =
      value d rest (.list tag (items.reverse ++ read) :: stack) := by
  induction items generalizing read es with
  | nil =>
      rw [List.map_eq_nil_iff.mp hes]
      rfl
  | cons x items ih =>
      obtain ⟨es₁, es₂, rfl, hes₁, hes₂⟩ := List.map_eq_append_iff.mp hes
      simp only [Doc.toNodes, Markup.Node.depthItems] at hdepth
      rw [List.append_assoc, h x (by simp) .none hes₁ (by simp; omega) (by simp [AwaitsValue]),
        afterValue, ih (fun y hy => h y (by simp [hy])) hes₂ (by omega)]
      simp

theorem value_fields {fields read : List (String × Doc)} (h : ∀ field ∈ fields, ReadBack d field.2)
    {es rest : List (Located Nat)}
    (hes : es.map Prod.fst = Markup.Node.spelledFields (Doc.toFields fields))
    (hdepth : stack.length + 1 + Markup.Node.depthFields (Doc.toFields fields) ≤ depthLimit) :
    value d (es ++ rest) (.map tag read none :: stack) =
      value d rest (.map tag (fields.reverse ++ read) none :: stack) := by
  induction fields generalizing read es with
  | nil =>
      rw [List.map_eq_nil_iff.mp hes]
      rfl
  | cons field fields ih =>
      obtain ⟨key, x⟩ := field
      obtain ⟨⟨_, p⟩, es', rfl, rfl, hes'⟩ := List.map_eq_cons_iff.mp hes
      obtain ⟨es₁, es₂, rfl, hes₁, hes₂⟩ := List.map_eq_append_iff.mp hes'
      simp only [Doc.toFields, Markup.Node.depthFields] at hdepth
      -- The first event is the key, which the open map keeps until its value has been read.
      rw [List.cons_append, List.append_assoc, value,
        h (key, x) (by simp) .none hes₁ (by simp; omega) (by simp [AwaitsValue]),
        afterValue, ih (fun y hy => h y (by simp [hy])) hes₂ (by omega)]
      simp

theorem readBack_scalar {v : Markup.Value} (text : String) (plain : Bool)
    (hspelled : ∀ tag, x.toNode.spelled tag = [(.scalar { tag, text, plain } : Markup.Event Nat)])
    (hx : ofValue v = x)
    (hv : (if plain then Markup.Value.ofPlain text else .text text) = v) : ReadBack d x := by
  intro tag y es rest stack htag hes _ hstack
  rw [hspelled] at hes
  obtain ⟨⟨_, p⟩, rfl, rfl⟩ := List.map_eq_singleton_iff.mp hes
  rw [List.singleton_append, value_scalar hstack, htag.ofScalar_eq hx hv]

theorem readBack_arr {items : List Doc} (h : ∀ x ∈ items, ReadBack d x) :
    ReadBack d (.arr items) := by
  intro tag y es rest stack htag hes hdepth _
  obtain ⟨⟨_, p⟩, es', rfl, rfl, hes'⟩ := List.map_eq_cons_iff.mp hes
  obtain ⟨es₁, es₂, rfl, hes₁, hes₂⟩ := List.map_eq_append_iff.mp hes'
  obtain ⟨⟨_, q⟩, rfl, rfl⟩ := List.map_eq_singleton_iff.mp hes₂
  simp only [Doc.toNode, Markup.Node.depth] at hdepth
  rw [List.cons_append, value, if_neg (by omega), List.append_assoc,
    value_items h hes₁ (by omega), List.singleton_append, value, List.append_nil,
    List.reverse_reverse, htag.withTag_eq]

theorem readBack_obj {fields : List (String × Doc)} (huntagged : Doc.Untagged (.obj fields))
    (h : ∀ field ∈ fields, ReadBack d field.2) : ReadBack d (.obj fields) := by
  intro tag y es rest stack htag hes hdepth _
  rw [Doc.toNode_obj huntagged] at hes hdepth
  obtain ⟨⟨_, p⟩, es', rfl, rfl, hes'⟩ := List.map_eq_cons_iff.mp hes
  obtain ⟨es₁, es₂, rfl, hes₁, hes₂⟩ := List.map_eq_append_iff.mp hes'
  obtain ⟨⟨_, q⟩, rfl, rfl⟩ := List.map_eq_singleton_iff.mp hes₂
  simp only [Markup.Node.depth] at hdepth
  rw [List.cons_append, value, if_neg (by omega), List.append_assoc,
    value_fields h hes₁ (by omega), List.singleton_append, value, List.append_nil,
    List.reverse_reverse, htag.withTag_eq]

theorem readBack_of_writable (h : x.Writable) : ReadBack d x := by
  induction h with
  | null => exact readBack_scalar (v := .null) "null" true (fun _ => rfl) rfl rfl
  | bool b =>
      cases b with
      | false => exact readBack_scalar (v := .bool false) "false" true (fun _ => rfl) rfl rfl
      | true => exact readBack_scalar (v := .bool true) "true" true (fun _ => rfl) rfl rfl
  | int hlow hhigh =>
      exact readBack_scalar _ true (fun _ => rfl) rfl (Markup.Value.ofPlain_toString hlow hhigh)
  | str s =>
      refine readBack_scalar (v := .text s) s _ (fun _ => rfl) rfl ?_
      by_cases hplain : Markup.Scalar.style s = .plain
      · simp [hplain, Markup.Scalar.ofPlain_of_style]
      · simp [hplain]
  | arr _ ih => exact readBack_arr ih
  | obj huntagged _ _ ih => exact readBack_obj huntagged ih
  | @tagged name x hname huntagged _ ih =>
      intro tag y es rest stack htag hes hdepth hstack
      rw [Doc.toNode_tagged hname] at hes hdepth
      cases htag with
      | none => exact ih (.some hname huntagged) hes hdepth hstack
      -- An alternative that a tag names does not directly hold another one.
      | some _ hnot => exact absurd (hnot name x rfl) (by simp [hname.capital])

/-- From the events of a program's document the program is read back. -/
theorem ofDocument_spelled {p : Program} (hbounded : p.Bounded) (hwritable : p.encode.Writable)
    (hdepth : p.encode.toNode.depth ≤ depthLimit)
    (hevents : d.events.map Prod.fst = p.encode.toNode.spelled none) (hfinish : d.finish = .ok ()) :
    ofDocument d = .ok p := by
  have hvalue : value d d.events [] = .ok p.encode := by
    have hread : value d (d.events ++ []) [] = afterValue d [] p.encode [] :=
      readBack_of_writable hwritable .none hevents (by simpa using hdepth) (by simp [AwaitsValue])
    rwa [List.append_nil, afterValue] at hread
  have hdecode : Program.decode? p.encode = some p := by
    obtain ⟨p', hencode, hread⟩ := Program.reads hbounded _ _ (.same p.encode)
    rwa [Program.encode_injective hencode] at hread
  have hprogram (place : Markup.Position) : program place p.encode = .ok p := by
    unfold program
    rw [hdecode]
    rfl
  obtain ⟨⟨_, place⟩, es, hes, rfl, -⟩ := List.map_eq_cons_iff.mp hevents
  rw [hes] at hvalue
  simp only [ofDocument, hes, hvalue, hfinish]
  change (program place p.encode).bind _ = _
  rw [hprogram]
  rfl

end TreeFile

end Backend
