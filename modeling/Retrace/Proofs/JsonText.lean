import Retrace.Json.Pretty
import Retrace.Proofs.Literal

/-!
# JSON text is read in one way

The text of a JSON value on several lines belongs to no other value, so nothing is lost by printing
either.

* `Json.chars` : the characters of a value at a level; `Json.toList_pretty`;
* `Json.Proper` : every number kept as it was written has a fraction or an exponent;
* `Json.quotedChars_inj`, `Json.chars_inj` : a string, and a value, can be told from what follows;
* `Json.pretty_inj` : values with the same text are the same.
-/

namespace Retrace

theorem Literal.unique {w : List Char} {n n' : Int} (h : Literal w n) (h' : Literal w n') : n = n' := by
  have sign {cs : List Char} : ¬ Text.IsDigits ('-' :: cs) := fun digits =>
    absurd (digits.2 '-' (by simp)) (by decide)
  cases h with
  | plain digits =>
      cases h' with
      | plain => rfl
      | negative => exact absurd digits sign
  | negative digits =>
      cases h' with
      | plain digits' => exact absurd digits' sign
      | negative => rfl

namespace Json

/-! ## Characters -/

def quotedChars (s : List Char) : List Char :=
  '"' :: (s.flatMap (fun c => (escaped c).toList) ++ ['"'])

def indent (level : Nat) : List Char := '\n' :: List.replicate (2 * level) ' '

mutual

/-- The characters of a value that starts at the given level. -/
def chars (level : Nat) : Json → List Char
  | null => ['n', 'u', 'l', 'l']
  | bool true => ['t', 'r', 'u', 'e']
  | bool false => ['f', 'a', 'l', 's', 'e']
  | int n => n.repr.toList
  | decimal literal => literal.toList
  | str s => quotedChars s.toList
  | arr [] => ['[', ']']
  | arr (first :: rest) =>
    '[' :: (indent (level + 1) ++ (chars (level + 1) first ++ (itemChars (level + 1) rest ++ (indent level ++ [']']))))
  | obj [] => ['\x7b', '\x7d']
  | obj ((name, value) :: rest) =>
    '\x7b' :: (indent (level + 1) ++ (quotedChars name.toList ++ (':' :: ' ' ::
      (chars (level + 1) value ++ (fieldChars (level + 1) rest ++ (indent level ++ ['\x7d']))))))

/-- The characters of further items of an array. -/
def itemChars (level : Nat) : List Json → List Char
  | [] => []
  | item :: rest => ',' :: (indent level ++ (chars level item ++ itemChars level rest))

/-- The characters of further members of an object. -/
def fieldChars (level : Nat) : List (String × Json) → List Char
  | [] => []
  | (name, value) :: rest =>
    ',' :: (indent level ++ (quotedChars name.toList ++ (':' :: ' ' :: (chars level value ++ fieldChars level rest))))

end

theorem toList_quoted (s : String) : (quoted s).toList = quotedChars s.toList := by
  have fold (cs : List Char) (out : String) :
      (cs.foldl (fun out c => out ++ escaped c) out).toList =
        out.toList ++ cs.flatMap fun c => (escaped c).toList := by
    induction cs generalizing out with
    | nil => simp
    | cons c cs ih => simp [ih]
  rw [quoted, String.toList_append, fold]
  simp [quotedChars]

theorem toList_newline (level : Nat) : (newline level).toList = indent level := String.toList_ofList

mutual

theorem toList_appendTo (out : String) (level : Nat) :
    ∀ j : Json, (appendTo out level j).toList = out.toList ++ chars level j
  | null => by simp [appendTo, chars]
  | bool true => by simp [appendTo, chars]
  | bool false => by simp [appendTo, chars]
  | int n => by simp [appendTo, chars]
  | decimal literal => by simp [appendTo, chars]
  | str s => by simp [appendTo, chars, toList_quoted]
  | arr [] => by simp [appendTo, chars]
  | arr (first :: rest) => by
      simp [appendTo, chars, toList_newline, toList_appendTo _ _ first, toList_appendItems _ _ rest]
  | obj [] => by simp [appendTo, chars]
  | obj ((name, value) :: rest) => by
      simp [appendTo, chars, toList_newline, toList_quoted, toList_appendTo _ _ value, toList_appendFields _ _ rest]

theorem toList_appendItems (out : String) (level : Nat) :
    ∀ items : List Json, (appendItems out level items).toList = out.toList ++ itemChars level items
  | [] => by simp [appendItems, itemChars]
  | item :: rest => by
      simp [appendItems, itemChars, toList_newline, toList_appendTo _ _ item, toList_appendItems _ _ rest]

theorem toList_appendFields (out : String) (level : Nat) :
    ∀ fields : List (String × Json), (appendFields out level fields).toList = out.toList ++ fieldChars level fields
  | [] => by simp [appendFields, fieldChars]
  | (name, value) :: rest => by
      simp [appendFields, fieldChars, toList_newline, toList_quoted, toList_appendTo _ _ value,
        toList_appendFields _ _ rest]

end

theorem toList_pretty (j : Json) : j.pretty.toList = chars 0 j := by
  rw [pretty, toList_appendTo]
  rfl

/-! ## Strings -/

def hexValue (c : Char) : Nat := if c.toNat < 58 then c.toNat - 48 else c.toNat - 87

theorem hexValue_hexDigit : ∀ n < 16, hexValue (hexDigit n) = n := by
  decide

/-- Takes the first character off an escaped text. -/
def unescape : List Char → Option (Char × List Char)
  | [] => none
  | '\\' :: 'u' :: _ :: _ :: high :: low :: rest => some (Char.ofNat (16 * hexValue high + hexValue low), rest)
  | '\\' :: 'b' :: rest => some ('\x08', rest)
  | '\\' :: 't' :: rest => some ('\t', rest)
  | '\\' :: 'n' :: rest => some ('\n', rest)
  | '\\' :: 'f' :: rest => some ('\x0c', rest)
  | '\\' :: 'r' :: rest => some ('\r', rest)
  | '\\' :: c :: rest => some (c, rest)
  | c :: rest => some (c, rest)

theorem unescape_escaped (c : Char) (rest : List Char) : unescape ((escaped c).toList ++ rest) = some (c, rest) := by
  unfold escaped
  split_ifs with quote backslash backspace tab lineFeed formFeed carriage control
  · rw [quote]; rfl
  · rw [backslash]; rfl
  · rw [backspace]; rfl
  · rw [tab]; rfl
  · rw [lineFeed]; rfl
  · rw [formFeed]; rfl
  · rw [carriage]; rfl
  · have high := hexValue_hexDigit (c.toNat / 16) (by omega)
    have low := hexValue_hexDigit (c.toNat % 16) (by omega)
    have value : Char.ofNat (16 * (c.toNat / 16) + c.toNat % 16) = c := by
      rw [Nat.div_add_mod, Char.ofNat_toNat]
    simp [unescape, high, low, value]
  · rw [String.toList_singleton, List.singleton_append]
    unfold unescape
    split <;> simp_all

/-- A quote in a string is escaped, so that it does not end the string. -/
theorem escaped_ne_quote {c : Char} {rest rest' : List Char} :
    (escaped c).toList ++ rest ≠ '"' :: rest' := by
  unfold escaped
  split_ifs with quote <;> simp [quote]

theorem flatMap_escaped_inj {s s' r r' : List Char}
    (h : s.flatMap (fun c => (escaped c).toList) ++ '"' :: r = s'.flatMap (fun c => (escaped c).toList) ++ '"' :: r') :
    s = s' ∧ r = r' := by
  induction s generalizing s' with
  | nil =>
      cases s' with
      | nil => simpa using h
      | cons c' s' =>
          rw [List.flatMap_cons, List.append_assoc] at h
          exact absurd h.symm escaped_ne_quote
  | cons c s ih =>
      cases s' with
      | nil =>
          rw [List.flatMap_cons, List.append_assoc] at h
          exact absurd h escaped_ne_quote
      | cons c' s' =>
          rw [List.flatMap_cons, List.flatMap_cons, List.append_assoc, List.append_assoc] at h
          have first := congrArg unescape h
          rw [unescape_escaped, unescape_escaped] at first
          simp only [Option.some.injEq, Prod.mk.injEq] at first
          obtain ⟨rfl, rfl⟩ := ih first.2
          exact ⟨by rw [first.1], rfl⟩

/-- Where a string ends is seen from its text. -/
theorem quotedChars_inj {s s' r r' : List Char} (h : quotedChars s ++ r = quotedChars s' ++ r') :
    s = s' ∧ r = r' := by
  unfold quotedChars at h
  simp only [List.cons_append, List.append_assoc, List.nil_append, List.cons.injEq, true_and] at h
  exact flatMap_escaped_inj h

/-! ## Numbers -/

/-- A character that sets off a fraction or an exponent. -/
def isMark (c : Char) : Bool := c = '.' || c = 'e' || c = 'E'

/-- A character that can stand in a number. -/
def inNumber (c : Char) : Bool := c.isDigit || c = '-' || c = '+' || isMark c

/-- Characters of a number, a mark among them. -/
def IsDecimal (cs : List Char) : Prop := (∀ c ∈ cs, inNumber c = true) ∧ ∃ c ∈ cs, isMark c = true

/-- No number goes on here. -/
def Ends (r : List Char) : Prop := ∀ c, r.head? = some c → inNumber c = false

theorem ends_cons {c : Char} {r : List Char} (h : inNumber c = false) : Ends (c :: r) := by
  intro c' first
  cases first
  exact h

theorem inNumber_of_literal {w : List Char} {n : Int} (h : Literal w n) :
    ∀ c ∈ w, inNumber c = true ∧ isMark c = false := by
  have digit (c : Char) (range : '0'.toNat ≤ c.toNat ∧ c.toNat ≤ '9'.toNat) :
      inNumber c = true ∧ isMark c = false := by
    have isDigit : c.isDigit = true := Char.isDigit_iff_toNat.2 range
    refine ⟨by simp [inNumber, isDigit], ?_⟩
    by_contra mark
    simp only [isMark, Bool.not_eq_false, Bool.or_eq_true, decide_eq_true_eq] at mark
    rcases mark with (rfl | rfl) | rfl <;> exact absurd isDigit (by decide)
  cases h with
  | plain digits => exact fun c hc => digit c (digits.2 c hc)
  | negative digits =>
      intro c hc
      rcases List.mem_cons.1 hc with rfl | hc
      · decide
      · exact digit c (digits.2 c hc)

theorem number_inj {xs ys r r' : List Char} (hx : ∀ c ∈ xs, inNumber c = true) (hy : ∀ c ∈ ys, inNumber c = true)
    (hr : Ends r) (hr' : Ends r') (h : xs ++ r = ys ++ r') : xs = ys ∧ r = r' := by
  induction xs generalizing ys with
  | nil =>
      cases ys with
      | nil => exact ⟨rfl, h⟩
      | cons y ys =>
          have ends := hr y (by rw [show r = _ from h]; rfl)
          exact absurd (hy y (by simp)) (by simp [ends])
  | cons x xs ih =>
      cases ys with
      | nil =>
          have ends := hr' x (by rw [show r' = _ from h.symm]; rfl)
          exact absurd (hx x (by simp)) (by simp [ends])
      | cons y ys =>
          obtain ⟨rfl, rest⟩ := List.cons.inj h
          obtain ⟨rfl, tail⟩ := ih (fun c hc => hx c (by simp [hc])) (fun c hc => hy c (by simp [hc])) rest
          exact ⟨rfl, tail⟩

/-! ## Values -/

mutual

/-- Every number kept as it was written has a fraction or an exponent. -/
def Proper : Json → Prop
  | decimal literal => IsDecimal literal.toList
  | arr items => ProperItems items
  | obj fields => ProperFields fields
  | _ => True

def ProperItems : List Json → Prop
  | [] => True
  | item :: rest => Proper item ∧ ProperItems rest

def ProperFields : List (String × Json) → Prop
  | [] => True
  | (_, value) :: rest => Proper value ∧ ProperFields rest

end

/-- What kind of value begins with a character. -/
inductive Kind where
  | null | bool | number | str | arr | obj
  deriving DecidableEq

def kind : Json → Kind
  | null => .null
  | bool _ => .bool
  | int _ | decimal _ => .number
  | str _ => .str
  | arr _ => .arr
  | obj _ => .obj

def kindOf (c : Char) : Kind :=
  if c = 'n' then .null
  else if c = 't' ∨ c = 'f' then .bool
  else if c = '"' then .str
  else if c = '[' then .arr
  else if c = '\x7b' then .obj
  else .number

theorem kindOf_inNumber {c : Char} (h : inNumber c = true) : kindOf c = .number := by
  unfold kindOf
  split_ifs with null bool str arr obj
  · exact absurd h (by rw [null]; decide)
  · rcases bool with rfl | rfl <;> exact absurd h (by decide)
  · exact absurd h (by rw [str]; decide)
  · exact absurd h (by rw [arr]; decide)
  · exact absurd h (by rw [obj]; decide)
  · rfl

/-- The first character of a value tells its kind. -/
theorem kind_of_chars {j : Json} (proper : j.Proper) (level : Nat) (r : List Char) :
    ((chars level j ++ r).head?).map kindOf = some j.kind := by
  have number {cs : List Char} (some_char : cs ≠ []) (all : ∀ c ∈ cs, inNumber c = true) :
      ((cs ++ r).head?).map kindOf = some .number := by
    obtain ⟨c, cs, rfl⟩ := List.exists_cons_of_ne_nil some_char
    exact congrArg some (kindOf_inNumber (all c (by simp)))
  cases j with
  | null => rfl
  | bool value => cases value <;> rfl
  | int n =>
      have literal := Literal.repr n
      exact number literal.isWord.1 fun c hc => (inNumber_of_literal literal c hc).1
  | decimal literal =>
      obtain ⟨all, c, member, -⟩ := proper
      exact number (List.ne_nil_of_mem member) all
  | str s => rfl
  | arr items => cases items <;> rfl
  | obj fields => cases fields <;> rfl

theorem ends_items {level : Nat} (items : List Json) (r : List Char) :
    Ends (itemChars level items ++ '\n' :: r) := by
  cases items with
  | nil => exact ends_cons (by decide)
  | cons item rest => exact ends_cons (by decide)

theorem ends_fields {level : Nat} (fields : List (String × Json)) (r : List Char) :
    Ends (fieldChars level fields ++ '\n' :: r) := by
  cases fields with
  | nil => exact ends_cons (by decide)
  | cons field rest => exact ends_cons (by decide)

theorem kind_eq {j j' : Json} {level : Nat} {r r' : List Char} (proper : j.Proper) (proper' : j'.Proper)
    (h : chars level j ++ r = chars level j' ++ r') : j.kind = j'.kind := by
  have first := kind_of_chars proper level r
  rw [h, kind_of_chars proper' level r'] at first
  exact (Option.some.inj first).symm

mutual

/-- Where a value ends is seen from its text. -/
theorem chars_inj : ∀ (j : Json) {j' : Json} {level : Nat} {r r' : List Char}, j.Proper → j'.Proper → Ends r →
    Ends r' → chars level j ++ r = chars level j' ++ r' → j = j' ∧ r = r'
  | null, j', _, _, _, proper, proper', _, _, h => by
      have kind := kind_eq proper proper' h
      cases j' with
      | null => simpa [chars] using h
      | _ => simp [Json.kind] at kind
  | bool value, j', _, _, _, proper, proper', _, _, h => by
      have kind := kind_eq proper proper' h
      cases j' with
      | bool value' => cases value <;> cases value' <;> simp [chars] at h <;> simp [h]
      | _ => simp [Json.kind] at kind
  | int n, j', _, _, _, proper, proper', ends, ends', h => by
      have kind := kind_eq proper proper' h
      have literal := inNumber_of_literal (Literal.repr n)
      cases j' with
      | int n' =>
          have literal' := inNumber_of_literal (Literal.repr n')
          obtain ⟨same, rest⟩ := number_inj (fun c hc => (literal c hc).1) (fun c hc => (literal' c hc).1) ends ends' h
          exact ⟨congrArg int ((Literal.repr n).unique (same ▸ Literal.repr n')), rest⟩
      | decimal text =>
          obtain ⟨same, -⟩ := number_inj (fun c hc => (literal c hc).1) proper'.1 ends ends' h
          -- a whole number has no mark
          obtain ⟨c, member, mark⟩ := proper'.2
          rw [← same] at member
          exact absurd mark (by simp [(literal c member).2])
      | _ => simp [Json.kind] at kind
  | decimal text, j', _, _, _, proper, proper', ends, ends', h => by
      have kind := kind_eq proper proper' h
      cases j' with
      | int n' =>
          have literal' := inNumber_of_literal (Literal.repr n')
          obtain ⟨same, -⟩ := number_inj proper.1 (fun c hc => (literal' c hc).1) ends ends' h
          obtain ⟨c, member, mark⟩ := proper.2
          rw [same] at member
          exact absurd mark (by simp [(literal' c member).2])
      | decimal text' =>
          obtain ⟨same, rest⟩ := number_inj proper.1 proper'.1 ends ends' h
          exact ⟨congrArg decimal (String.toList_inj.1 same), rest⟩
      | _ => simp [Json.kind] at kind
  | str s, j', _, _, _, proper, proper', _, _, h => by
      have kind := kind_eq proper proper' h
      cases j' with
      | str s' =>
          obtain ⟨same, rest⟩ := quotedChars_inj h
          exact ⟨congrArg str (String.toList_inj.1 same), rest⟩
      | _ => simp [Json.kind] at kind
  | arr [], j', _, _, _, proper, proper', _, _, h => by
      have kind := kind_eq proper proper' h
      cases j' with
      | arr items' =>
          cases items' with
          | nil => simpa [chars] using h
          | cons first' rest' => simp [chars, indent] at h
      | _ => simp [Json.kind] at kind
  | arr (first :: rest), j', level, r, r', proper, proper', _, _, h => by
      have kind := kind_eq proper proper' h
      cases j' with
      | arr items' =>
          cases items' with
          | nil => simp [chars, indent] at h
          | cons first' rest' =>
              simp only [chars, List.cons_append, List.append_assoc, List.cons.injEq, true_and,
                List.append_cancel_left_eq] at h
              obtain ⟨rfl, more⟩ := chars_inj first proper.1 proper'.1 (ends_items rest _) (ends_items rest' _) h
              obtain ⟨rfl, closing⟩ := items_inj rest proper.2 proper'.2 more
              exact ⟨rfl, by simpa using closing⟩
      | _ => simp [Json.kind] at kind
  | obj [], j', _, _, _, proper, proper', _, _, h => by
      have kind := kind_eq proper proper' h
      cases j' with
      | obj fields' =>
          cases fields' with
          | nil => simpa [chars] using h
          | cons field' rest' => simp [chars, indent] at h
      | _ => simp [Json.kind] at kind
  | obj ((name, value) :: rest), j', level, r, r', proper, proper', _, _, h => by
      have kind := kind_eq proper proper' h
      cases j' with
      | obj fields' =>
          cases fields' with
          | nil => simp [chars, indent] at h
          | cons field' rest' =>
              obtain ⟨name', value'⟩ := field'
              simp only [chars, List.cons_append, List.append_assoc, List.cons.injEq, true_and,
                List.append_cancel_left_eq] at h
              obtain ⟨same, member⟩ := quotedChars_inj h
              simp only [List.cons.injEq, true_and] at member
              obtain ⟨rfl, more⟩ := chars_inj value proper.1 proper'.1 (ends_fields rest _) (ends_fields rest' _) member
              obtain ⟨rfl, closing⟩ := fields_inj rest proper.2 proper'.2 more
              exact ⟨by rw [String.toList_inj.1 same], by simpa using closing⟩
      | _ => simp [Json.kind] at kind

theorem items_inj : ∀ (items : List Json) {items' : List Json} {level : Nat} {r r' : List Char}, ProperItems items →
    ProperItems items' → itemChars level items ++ '\n' :: r = itemChars level items' ++ '\n' :: r' →
    items = items' ∧ r = r'
  | [], items', _, _, _, _, _, h => by
      cases items' with
      | nil => simpa [itemChars] using h
      | cons item' rest' => simp [itemChars] at h
  | item :: rest, items', level, r, r', proper, proper', h => by
      cases items' with
      | nil => simp [itemChars] at h
      | cons item' rest' =>
          simp only [itemChars, List.cons_append, List.append_assoc, List.cons.injEq, true_and,
            List.append_cancel_left_eq] at h
          obtain ⟨rfl, more⟩ := chars_inj item proper.1 proper'.1 (ends_items rest r) (ends_items rest' r') h
          obtain ⟨rfl, closing⟩ := items_inj rest proper.2 proper'.2 more
          exact ⟨rfl, closing⟩

theorem fields_inj : ∀ (fields : List (String × Json)) {fields' : List (String × Json)} {level : Nat}
    {r r' : List Char}, ProperFields fields → ProperFields fields' →
    fieldChars level fields ++ '\n' :: r = fieldChars level fields' ++ '\n' :: r' → fields = fields' ∧ r = r'
  | [], fields', _, _, _, _, _, h => by
      cases fields' with
      | nil => simpa [fieldChars] using h
      | cons field' rest' => simp [fieldChars] at h
  | (name, value) :: rest, fields', level, r, r', proper, proper', h => by
      cases fields' with
      | nil => simp [fieldChars] at h
      | cons field' rest' =>
          obtain ⟨name', value'⟩ := field'
          simp only [fieldChars, List.cons_append, List.append_assoc, List.cons.injEq, true_and,
            List.append_cancel_left_eq] at h
          obtain ⟨same, member⟩ := quotedChars_inj h
          simp only [List.cons.injEq, true_and] at member
          obtain ⟨rfl, more⟩ := chars_inj value proper.1 proper'.1 (ends_fields rest r) (ends_fields rest' r') member
          obtain ⟨rfl, closing⟩ := fields_inj rest proper.2 proper'.2 more
          exact ⟨by rw [String.toList_inj.1 same], closing⟩

end

/-- **JSON text is read in one way.** -/
theorem pretty_inj {j j' : Json} (proper : j.Proper) (proper' : j'.Proper) (h : j.pretty = j'.pretty) : j = j' := by
  have ends : Ends [] := fun c first => absurd first (by simp)
  have same : chars 0 j ++ [] = chars 0 j' ++ [] := by
    rw [← toList_pretty, ← toList_pretty, h]
  exact (chars_inj j proper proper' ends ends same).1

end Json

end Retrace
