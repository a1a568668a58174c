import Mathlib.Tactic.SplitIfs
import TreeGrammar.Grammar.Export

/-! # JSON can be read back

    The text of a JSON value tells which value it is, whatever text follows.

    Key idea:
    - something is `Recoverable` from its text if no other thing has a text
      that could stand at the same start;
    - what is written in a row is recoverable, part by part, if each part is
      and the end of the row looks like none of them
      (`Recoverable.row`);
    - this covers the characters of a string up to the closing mark, and the
      items of an array up to its bracket.
-/

namespace TreeGrammar

/-- Whatever starts with the text of `a` starts with the text of nothing else, so that it tells
    where this text ends. -/
def Recoverable {α : Type} (f : α → List Char) (a : α) : Prop :=
  ∀ b rest rest', f a ++ rest = f b ++ rest' → a = b ∧ rest = rest'

section Recoverable

variable {α β : Type} {f : α → List Char} {g : β → List Char}

/-- Text that is in front of everything tells nothing. -/
theorem Recoverable.after {a : α} (h : Recoverable f a) (front : List Char) :
    Recoverable (fun a => front ++ f a) a := by
  intro b rest rest' heq
  rw [List.append_assoc, List.append_assoc] at heq
  exact h b rest rest' (List.append_cancel_left heq)

/-- One thing behind another. -/
theorem Recoverable.prod {a : α} {b : β} (ha : Recoverable f a) (hb : Recoverable g b) :
    Recoverable (fun p : α × β => f p.1 ++ g p.2) (a, b) := by
  rintro ⟨a', b'⟩ rest rest' heq
  rw [List.append_assoc, List.append_assoc] at heq
  obtain ⟨rfl, hbehind⟩ := ha a' _ _ heq
  obtain ⟨rfl, hrest⟩ := hb b' _ _ hbehind
  exact ⟨rfl, hrest⟩

/-- A row of things up to a stop that none of them looks like. -/
theorem Recoverable.row (as : List α) (stop : List Char) (h : ∀ a ∈ as, Recoverable f a)
    (hstop : ∀ a rest rest', f a ++ rest ≠ stop ++ rest') :
    Recoverable (fun as => as.flatMap f ++ stop) as := by
  intro bs rest rest' heq
  rw [List.append_assoc, List.append_assoc] at heq
  induction as generalizing bs with
  | nil =>
    cases bs with
    | nil => exact ⟨rfl, List.append_cancel_left heq⟩
    | cons b bs =>
      rw [List.flatMap_cons, List.append_assoc] at heq
      exact absurd heq.symm (hstop b _ _)
  | cons a as ih =>
    rw [List.forall_mem_cons] at h
    rw [List.flatMap_cons, List.append_assoc] at heq
    cases bs with
    | nil => exact absurd heq (hstop a _ _)
    | cons b bs =>
      rw [List.flatMap_cons, List.append_assoc] at heq
      obtain ⟨rfl, hbehind⟩ := h.1 b _ _ heq
      obtain ⟨rfl, hrest⟩ := ih h.2 bs hbehind
      exact ⟨rfl, hrest⟩

end Recoverable

namespace Json

/-! ### Strings -/

/-- The value of a hexadecimal digit in lower case. -/
def hexValue (digit : Char) : Nat :=
  if digit.isDigit then digit.toNat - '0'.toNat else digit.toNat - 'a'.toNat + 10

/-- The character that a text inside a string starts with, and the text behind it. -/
def firstChar? : List Char → Option (Char × List Char)
  | '\\' :: 'u' :: '0' :: '0' :: high :: low :: rest =>
    some (Char.ofNat (16 * hexValue high + hexValue low), rest)
  | '\\' :: 'n' :: rest => some ('\n', rest)
  | '\\' :: 'r' :: rest => some ('\r', rest)
  | '\\' :: 't' :: rest => some ('\t', rest)
  | '\\' :: 'b' :: rest => some (Char.ofNat 8, rest)
  | '\\' :: 'f' :: rest => some (Char.ofNat 12, rest)
  | '\\' :: c :: rest => some (c, rest)
  | c :: rest => some (c, rest)
  | [] => none

theorem hexValue_digits : ∀ n < 32,
    16 * hexValue (Nat.digitChar (n / 16)) + hexValue (Nat.digitChar (n % 16)) = n := by
  decide

theorem firstChar?_escape (c : Char) (rest : List Char) :
    firstChar? ((escape c).toList ++ rest) = some (c, rest) := by
  unfold escape
  split_ifs with hquote hslash hline hreturn htab hback hfeed hcontrol
  · subst hquote; rfl
  · subst hslash; rfl
  · subst hline; rfl
  · subst hreturn; rfl
  · subst htab; rfl
  · rw [show c = Char.ofNat 8 by rw [← hback, Char.ofNat_toNat]]
    rfl
  · rw [show c = Char.ofNat 12 by rw [← hfeed, Char.ofNat_toNat]]
    rfl
  · have htext : ("\\u" ++ hexByte c.toNat).toList =
        ['\\', 'u', '0', '0', Nat.digitChar (c.toNat / 16), Nat.digitChar (c.toNat % 16)] := by
      simp [hexByte]
    rw [htext]
    show some (Char.ofNat (16 * hexValue _ + hexValue _), rest) = _
    rw [hexValue_digits _ hcontrol, Char.ofNat_toNat]
  · -- Any other character stands for itself, and only a backslash would start an escape.
    rw [Char.toString_eq_singleton, String.toList_singleton, List.singleton_append]
    unfold firstChar?
    split <;> simp_all

theorem escape_recoverable (c : Char) : Recoverable (fun c => (escape c).toList) c := by
  intro d rest rest' heq
  have hfirst := congrArg firstChar? heq
  rw [firstChar?_escape, firstChar?_escape] at hfirst
  exact Prod.mk.inj (Option.some.inj hfirst)

/-- No character of a string looks like the mark that closes it. -/
theorem escape_append_ne (c : Char) (rest rest' : List Char) :
    (escape c).toList ++ rest ≠ ['"'] ++ rest' := by
  intro heq
  have hfirst := congrArg firstChar? heq
  rw [firstChar?_escape] at hfirst
  obtain rfl : c = '"' := (Prod.mk.inj (Option.some.inj hfirst)).1
  exact absurd (List.cons.inj heq).1 (by decide)

theorem quote_recoverable (text : String) : Recoverable (fun text => (quote text).toList) text := by
  have htext : ∀ text : String, (quote text).toList =
      ['"'] ++ (text.toList.flatMap (fun c => (escape c).toList) ++ ['"']) := by
    intro text
    simp [quote, String.toList_join, List.flatMap_map]
  have hrow := (Recoverable.row text.toList ['"'] (fun c _ => escape_recoverable c)
    escape_append_ne).after ['"']
  intro text' rest rest' heq
  obtain ⟨hchars, hrest⟩ := hrow text'.toList rest rest' (by simpa only [htext] using heq)
  exact ⟨String.toList_inj.1 hchars, hrest⟩

/-! ### Values -/

theorem toList_intercalate_cons (separator first : String) (others : List String) :
    (separator.intercalate (first :: others)).toList =
      first.toList ++ others.flatMap fun other => separator.toList ++ other.toList := by
  induction others generalizing first with
  | nil => simp
  | cons second others ih =>
    rw [String.intercalate_cons_cons, String.toList_append, String.toList_append, ih]
    simp

/-- Lines inside brackets are recoverable if each of them is. A comma tells that one more line
    comes, and a line end without a comma that none does. -/
theorem bracketed_recoverable {α : Type} {f : α → String} {opening closing : String}
    {c : Char} (hclosing : closing.toList = [c]) (hc : c ≠ '\n') (depth : Nat) {as : List α}
    (h : ∀ a ∈ as, Recoverable (fun a => (f a).toList) a) :
    Recoverable (fun as => (bracketed opening closing depth (as.map f)).toList) as := by
  have hempty : ∀ rest, (bracketed opening closing depth ([].map f)).toList ++ rest =
      opening.toList ++ c :: rest := by
    simp [bracketed, hclosing]
  have hlines : ∀ a as rest, (bracketed opening closing depth ((a :: as).map f)).toList ++ rest =
      opening.toList ++ '\n' :: ((margin (depth + 1)).toList ++ (f a).toList ++
        (as.flatMap (fun a => (",\n" ++ margin (depth + 1)).toList ++ (f a).toList) ++
          ("\n" ++ margin depth ++ closing).toList) ++ rest) := by
    intro a as rest
    have hne : ((a :: as).map f).isEmpty = false := rfl
    rw [bracketed, hne, List.map_cons, List.map_cons]
    simp [-String.toList_intercalate, toList_intercalate_cons, List.flatMap_map]
  intro bs rest rest' heq
  dsimp only at heq
  -- Behind the opening bracket, no lines go on with the closing one, and any with a line end.
  cases as with
  | nil =>
    cases bs with
    | nil => exact ⟨rfl, List.append_cancel_left heq⟩
    | cons b bs =>
      rw [hempty, hlines] at heq
      exact absurd (List.cons.inj (List.append_cancel_left heq)).1 hc
  | cons a as =>
    cases bs with
    | nil =>
      rw [hempty, hlines] at heq
      exact absurd (List.cons.inj (List.append_cancel_left heq)).1.symm hc
    | cons b bs =>
      rw [List.forall_mem_cons] at h
      have hrow := Recoverable.row as ("\n" ++ margin depth ++ closing).toList
        (fun a ha => (h.2 a ha).after (",\n" ++ margin (depth + 1)).toList)
        (by intro a rest rest' heq; simp at heq)
      rw [hlines, hlines] at heq
      obtain ⟨hsame, hrest⟩ := ((h.1.after (margin (depth + 1)).toList).prod hrow) (b, bs)
        rest rest' (List.cons.inj (List.append_cancel_left heq)).2
      obtain ⟨rfl, rfl⟩ := Prod.mk.inj hsame
      exact ⟨rfl, hrest⟩

/-- The character that a value starts with. -/
def opening : Json → Char
  | .string _ => '"'
  | .array _ => '['
  | .object _ => '\x7b'

theorem exists_opening (depth : Nat) (value : Json) :
    ∃ rest, (prettyAt depth value).toList = value.opening :: rest := by
  have hbracketed : ∀ opening closing : String, ∀ lines : List String, ∃ rest,
      (bracketed opening closing depth lines).toList = opening.toList ++ rest := by
    intro opening closing lines
    unfold bracketed
    split
    · exact ⟨_, String.toList_append⟩
    · exact ⟨_, by simp only [String.toList_append, List.append_assoc]; rfl⟩
  cases value with
  | string value =>
    rw [prettyAt, quote, String.toList_append, String.toList_append]
    exact ⟨_, rfl⟩
  | array items => exact hbracketed "[" "]" _
  | object members => exact hbracketed "\x7b" "\x7d" _

/-- The text of a value is recoverable at any depth. -/
def Decodes (value : Json) : Prop :=
  ∀ depth, Recoverable (fun value => (prettyAt depth value).toList) value

/-- Values that start with the same character are of the same sort. -/
theorem opening_eq {depth : Nat} {value value' : Json} {rest rest' : List Char}
    (heq : (prettyAt depth value).toList ++ rest = (prettyAt depth value').toList ++ rest') :
    value.opening = value'.opening := by
  obtain ⟨behind, hbehind⟩ := exists_opening depth value
  obtain ⟨behind', hbehind'⟩ := exists_opening depth value'
  rw [hbehind, hbehind'] at heq
  exact (List.cons.inj heq).1

theorem decodes_string (text : String) : Decodes (.string text) := by
  intro depth value rest rest' heq
  have hopening := opening_eq heq
  cases value with
  | string text' =>
    obtain ⟨rfl, hrest⟩ := quote_recoverable text text' rest rest' heq
    exact ⟨rfl, hrest⟩
  | array _ => exact absurd hopening (by simp [opening])
  | object _ => exact absurd hopening (by simp [opening])

theorem decodes_array {items : List Json} (h : ∀ item ∈ items, Decodes item) :
    Decodes (.array items) := by
  intro depth value rest rest' heq
  have hopening := opening_eq heq
  cases value with
  | string _ => exact absurd hopening (by simp [opening])
  | array items' =>
    simp only [prettyAt, prettyItems_eq_map] at heq
    obtain ⟨rfl, hrest⟩ := bracketed_recoverable (c := ']') rfl (by decide) depth
      (fun item hitem => h item hitem (depth + 1)) items' rest rest' heq
    exact ⟨rfl, hrest⟩
  | object _ => exact absurd hopening (by simp [opening])

theorem decodes_object {members : List (String × Json)}
    (h : ∀ member ∈ members, Decodes member.2) : Decodes (.object members) := by
  have hmember : ∀ depth, ∀ member ∈ members, Recoverable
      (fun member : String × Json =>
        (quote member.1 ++ ": " ++ prettyAt depth member.2).toList) member := by
    intro depth member hmember
    have hvalue := (h member hmember depth).after ": ".toList
    intro member' rest rest' heq
    exact ((quote_recoverable member.1).prod hvalue) member' rest rest' (by simpa using heq)
  intro depth value rest rest' heq
  have hopening := opening_eq heq
  cases value with
  | string _ => exact absurd hopening (by simp [opening])
  | array _ => exact absurd hopening (by simp [opening])
  | object members' =>
    simp only [prettyAt, prettyMembers_eq_map] at heq
    obtain ⟨rfl, hrest⟩ := bracketed_recoverable (c := '\x7d') rfl (by decide) depth
      (hmember (depth + 1)) members' rest rest' heq
    exact ⟨rfl, hrest⟩

mutual

theorem decodes : ∀ value : Json, Decodes value
  | .string text => decodes_string text
  | .array items => decodes_array (decodes_items items)
  | .object members => decodes_object (decodes_members members)

theorem decodes_items : ∀ items : List Json, ∀ item ∈ items, Decodes item
  | [] => List.forall_mem_nil _
  | item :: items => List.forall_mem_cons.2 ⟨decodes item, decodes_items items⟩

theorem decodes_members : ∀ members : List (String × Json), ∀ member ∈ members, Decodes member.2
  | [] => List.forall_mem_nil _
  | (_, value) :: members => List.forall_mem_cons.2 ⟨decodes value, decodes_members members⟩

end

/-- Different values have different texts. -/
theorem pretty_injective {value value' : Json} (h : value.pretty = value'.pretty) :
    value = value' := by
  refine (decodes value 0 value' [] [] ?_).1
  rw [List.append_nil, List.append_nil]
  exact congrArg String.toList h

end Json

/-! ### Grammars -/

namespace Rule

mutual

/-- A rule is settled by its JSON. -/
theorem toJson_inj : ∀ a b : NamedRule, toJson a = toJson b ↔ a = b
  | .node name, b => by cases b <;> simp [toJson, Json.tagged]
  | .token name, b => by cases b <;> simp [toJson, Json.tagged]
  | .labeled label body, b => by cases b <;> simp [toJson, Json.tagged, toJson_inj body]
  | .seq parts, b => by
    cases b <;> simp [-toJsonList_eq_map, toJson, Json.tagged, toJsonList_inj parts]
  | .alt choices, b => by
    cases b <;> simp [-toJsonList_eq_map, toJson, Json.tagged, toJsonList_inj choices]
  | .opt body, b => by cases b <;> simp [toJson, Json.tagged, toJson_inj body]
  | .rep body, b => by cases b <;> simp [toJson, Json.tagged, toJson_inj body]

theorem toJsonList_inj : ∀ as bs : List NamedRule, toJsonList as = toJsonList bs ↔ as = bs
  | [], bs => by cases bs <;> simp [toJsonList]
  | a :: as, bs => by
    cases bs <;> simp [-toJsonList_eq_map, toJsonList, toJson_inj a, toJsonList_inj as]

end

end Rule

end TreeGrammar
