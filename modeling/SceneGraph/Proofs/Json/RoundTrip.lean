import SceneGraph.Json.Reading
import SceneGraph.Proofs.Json.Tokens

/-!
JSON values without numbers read back from their text. A value is rendered to a text that is scanned
to the tokens it is spelled with, and these are read as the value.
-/

namespace SceneGraph.Json

mutual

def hasNumber : Json → Bool
  | .null | .bool _ | .string _ => false
  | .number _ => true
  | .array items => anyNumber items
  | .object members => anyMemberNumber members

def anyNumber : List Json → Bool
  | [] => false
  | item :: rest => item.hasNumber || anyNumber rest

def anyMemberNumber : List (String × Json) → Bool
  | [] => false
  | (_, value) :: rest => value.hasNumber || anyMemberNumber rest

end

mutual

def spelling : Json → List Token
  | .null => [.null]
  | .bool value => [.bool value]
  | .number _ => [.fault]
  | .string text => [.string (some text)]
  | .array items => .beginArray :: ([.comma].intercalate (spellings items) ++ [.endArray])
  | .object members =>
    .beginObject :: ([.comma].intercalate (memberSpellings members) ++ [.endObject])

def spellings : List Json → List (List Token)
  | [] => []
  | item :: rest => item.spelling :: spellings rest

def memberSpellings : List (String × Json) → List (List Token)
  | [] => []
  | (key, value) :: rest =>
    (.string (some key) :: .colon :: value.spelling) :: memberSpellings rest

end

mutual

def reading : Json → Reading
  | .null => .null
  | .bool value => .bool value
  | .number _ => .broken
  | .string text => .string (some text)
  | .array items => .array (readings items) true
  | .object members => .object (memberReadings members) true

def readings : List Json → List Reading
  | [] => []
  | item :: rest => item.reading :: readings rest

def memberReadings : List (String × Json) → List (Option String × Reading)
  | [] => []
  | (key, value) :: rest => (some key, value.reading) :: memberReadings rest

end

/-! From values to tokens. -/

theorem Scans.intercalate {texts : List (List Char)} {spelled : List (List Token)}
    (scans : List.Forall₂ Scans texts spelled) :
    Scans ([','].intercalate texts) ([.comma].intercalate spelled) := by
  induction scans with
  | nil => exact Scans.nil
  | @cons text tokens texts spelled first rest ih =>
      cases rest with
      | nil => simpa using first
      | cons second later =>
          rw [List.intercalate_cons_cons, List.intercalate_cons_cons]
          exact (first.append (Scans.token fun _ _ => rfl)).append ih

theorem Scans.enclosed {text : List Char} {tokens : List Token} {first last : Char}
    {opens closes : Token} (scans : Scans text tokens)
    (opened : Scans [first] [opens]) (closed : Scans [last] [closes]) :
    Scans (first :: (text ++ [last])) (opens :: (tokens ++ [closes])) :=
  opened.append (scans.append closed)

mutual

theorem scans_render : ∀ value : Json, value.hasNumber = false →
    Scans value.render.toList value.spelling
  | .null, _ => Scans.token fun _ _ => rfl
  | .bool true, _ => Scans.token fun _ _ => rfl
  | .bool false, _ => Scans.token fun _ _ => rfl
  | .string text, _ => by
      rw [render, spelling]
      exact Scans.quote text
  | .array items, plain => by
      have scans := Scans.intercalate (scans_renderItems items plain)
      have opened : Scans ['['] [.beginArray] := Scans.token fun _ _ => rfl
      have closed : Scans [']'] [.endArray] := Scans.token fun _ _ => rfl
      simpa [render, spelling] using scans.enclosed opened closed
  | .object members, plain => by
      have scans := Scans.intercalate (scans_renderMembers members plain)
      have opened : Scans ['\x7b'] [.beginObject] := Scans.token fun _ _ => rfl
      have closed : Scans ['\x7d'] [.endObject] := Scans.token fun _ _ => rfl
      simpa [render, spelling] using scans.enclosed opened closed

theorem scans_renderItems : ∀ items : List Json, anyNumber items = false →
    List.Forall₂ Scans ((renderItems items).map String.toList) (spellings items)
  | [], _ => .nil
  | item :: rest, plain => by
      obtain ⟨first, others⟩ : item.hasNumber = false ∧ anyNumber rest = false := by
        simpa [anyNumber] using plain
      rw [renderItems, spellings, List.map_cons]
      exact .cons (scans_render item first) (scans_renderItems rest others)

theorem scans_renderMembers : ∀ members : List (String × Json), anyMemberNumber members = false →
    List.Forall₂ Scans ((renderMembers members).map String.toList) (memberSpellings members)
  | [], _ => .nil
  | (key, value) :: rest, plain => by
      obtain ⟨first, others⟩ : value.hasNumber = false ∧ anyMemberNumber rest = false := by
        simpa [anyMemberNumber] using plain
      rw [renderMembers, memberSpellings, List.map_cons]
      refine .cons ?_ (scans_renderMembers rest others)
      have colon : Scans [':'] [.colon] := Scans.token fun _ _ => rfl
      simpa using ((Scans.quote key).append colon).append (scans_render value first)

end

theorem tokens_render (value : Json) (plain : value.hasNumber = false) :
    tokens value.render = value.spelling := by
  have scans := scans_render value plain
  obtain ⟨room, enough⟩ := Nat.exists_eq_add_of_le scans.short
  have scanned := scans.scanned room []
  have ended : scanTokens room [] = [] := by cases room <;> rfl
  rw [tokens, enough]
  simpa [ended] using scanned

/-! From tokens to values. -/

open Reading

theorem spelling_opens (value : Json) (plain : value.hasNumber = false) :
    ∃ first rest, value.spelling = first :: rest ∧ first ≠ .endArray := by
  cases value with
  | number value => cases plain
  | _ => exact ⟨_, _, by rw [spelling], by simp⟩

theorem spelling_positive (value : Json) (plain : value.hasNumber = false) :
    0 < value.spelling.length := by
  obtain ⟨first, rest, spelled, _⟩ := spelling_opens value plain
  rw [spelled]
  exact Nat.succ_pos _

theorem intercalate_opens {α : Type} (mark first : α) (others : List α) (pieces : List (List α)) :
    ∃ rest, [mark].intercalate ((first :: others) :: pieces) = first :: rest := by
  cases pieces with
  | nil => exact ⟨others, List.intercalate_singleton⟩
  | cons second later =>
      rw [List.intercalate_cons_cons, List.append_assoc, List.cons_append]
      exact ⟨_, rfl⟩

theorem readValue_beginArray {first : Token} (opens : first ≠ .endArray) (room : Nat)
    (rest : List Token) : readValue (room + 1) (.beginArray :: first :: rest) =
      (.array (readItems room (first :: rest)).1 (readItems room (first :: rest)).2.isSome,
        (readItems room (first :: rest)).2) := by
  rw [readValue]
  rintro _ ⟨⟩
  exact opens rfl

theorem readValue_beginObject {first : Token} (opens : first ≠ .endObject) (room : Nat)
    (rest : List Token) : readValue (room + 1) (.beginObject :: first :: rest) =
      (.object (readMembers room (first :: rest)).1 (readMembers room (first :: rest)).2.isSome,
        (readMembers room (first :: rest)).2) := by
  rw [readValue]
  rintro _ ⟨⟩
  exact opens rfl

mutual

theorem readValue_spelling : ∀ (value : Json) (room : Nat) (rest : List Token),
    value.hasNumber = false → 2 * value.spelling.length ≤ room →
    readValue room (value.spelling ++ rest) = (value.reading, some rest)
  | value, 0, _, plain, bound => by
      have positive := spelling_positive value plain
      omega
  | .null, room + 1, rest, _, _ => rfl
  | .bool value, room + 1, rest, _, _ => rfl
  | .string text, room + 1, rest, _, _ => rfl
  | .array [], room + 1, rest, _, _ => rfl
  | .array (item :: items), room + 1, rest, plain, bound => by
      have enough : 2 * ([Token.comma].intercalate (spellings (item :: items))).length + 2 ≤
          room := by
        simp only [spelling, List.length_cons, List.length_append, List.length_nil] at bound
        omega
      have read := readItems_spellings item items room rest plain enough
      have first : item.hasNumber = false := by
        rw [hasNumber, anyNumber, Bool.or_eq_false_iff] at plain
        exact plain.1
      obtain ⟨token, others, spelled, opens⟩ := spelling_opens item first
      obtain ⟨more, starts⟩ := intercalate_opens .comma token others (spellings items)
      rw [← spelled, ← spellings] at starts
      rw [starts, List.cons_append] at read
      rw [spelling, starts, List.cons_append, List.cons_append, List.cons_append, List.append_assoc,
        List.singleton_append, readValue_beginArray opens, read]
      rfl
  | .object [], room + 1, rest, _, _ => rfl
  | .object ((key, value) :: members), room + 1, rest, plain, bound => by
      have enough : 2 * ([Token.comma].intercalate
          (memberSpellings ((key, value) :: members))).length + 2 ≤ room := by
        simp only [spelling, List.length_cons, List.length_append, List.length_nil] at bound
        omega
      have read := readMembers_spellings key value members room rest plain enough
      obtain ⟨more, starts⟩ := intercalate_opens .comma (.string (some key))
        (.colon :: value.spelling) (memberSpellings members)
      rw [← memberSpellings] at starts
      rw [starts, List.cons_append] at read
      rw [spelling, starts, List.cons_append, List.cons_append, List.cons_append, List.append_assoc,
        List.singleton_append, readValue_beginObject (by simp), read]
      rfl

theorem readItems_spellings : ∀ (item : Json) (items : List Json) (room : Nat) (rest : List Token),
    anyNumber (item :: items) = false →
    2 * ([Token.comma].intercalate (spellings (item :: items))).length + 2 ≤ room →
    readItems room ([.comma].intercalate (spellings (item :: items)) ++ .endArray :: rest) =
      (readings (item :: items), some rest)
  | item, [], room + 1, rest, plain, bound => by
      have first : item.hasNumber = false := by simpa [anyNumber] using plain
      have enough : 2 * item.spelling.length ≤ room := by
        simp [spellings] at bound
        omega
      have read := readValue_spelling item room (.endArray :: rest) first enough
      simp [spellings, readings, readItems, read]
  | item, second :: items, room + 1, rest, plain, bound => by
      obtain ⟨first, others⟩ : item.hasNumber = false ∧ anyNumber (second :: items) = false := by
        rwa [anyNumber, Bool.or_eq_false_iff] at plain
      have split : [Token.comma].intercalate (spellings (item :: second :: items)) =
          item.spelling ++ .comma :: [.comma].intercalate (spellings (second :: items)) := by
        simp [spellings, List.intercalate_cons_cons]
      rw [split, List.length_append, List.length_cons] at bound
      have positive := spelling_positive item first
      have read := readValue_spelling item room
        (.comma :: ([.comma].intercalate (spellings (second :: items)) ++ .endArray :: rest)) first
        (by omega)
      have later := readItems_spellings second items room rest others (by omega)
      rw [split, List.append_assoc, List.cons_append, readItems, read]
      dsimp only
      rw [later]
      rfl

theorem readMembers_spellings : ∀ (key : String) (value : Json) (members : List (String × Json))
    (room : Nat) (rest : List Token), anyMemberNumber ((key, value) :: members) = false →
    2 * ([Token.comma].intercalate (memberSpellings ((key, value) :: members))).length + 2 ≤ room →
    readMembers room
        ([.comma].intercalate (memberSpellings ((key, value) :: members)) ++ .endObject :: rest) =
      (memberReadings ((key, value) :: members), some rest)
  | key, value, [], room + 1, rest, plain, bound => by
      have first : value.hasNumber = false := by simpa [anyMemberNumber] using plain
      have enough : 2 * value.spelling.length ≤ room := by
        simp [memberSpellings] at bound
        omega
      have read := readValue_spelling value room (.endObject :: rest) first enough
      simp [memberSpellings, memberReadings, readMembers, read]
  | key, value, (second, next) :: members, room + 1, rest, plain, bound => by
      obtain ⟨first, others⟩ :
          value.hasNumber = false ∧ anyMemberNumber ((second, next) :: members) = false := by
        rwa [anyMemberNumber, Bool.or_eq_false_iff] at plain
      have split : [Token.comma].intercalate
          (memberSpellings ((key, value) :: (second, next) :: members)) =
          .string (some key) :: .colon :: (value.spelling ++
            .comma :: [.comma].intercalate (memberSpellings ((second, next) :: members))) := by
        simp [memberSpellings, List.intercalate_cons_cons]
      rw [split, List.length_cons, List.length_cons, List.length_append, List.length_cons] at bound
      have read := readValue_spelling value room (.comma ::
        ([.comma].intercalate (memberSpellings ((second, next) :: members)) ++ .endObject :: rest))
        first (by omega)
      have later := readMembers_spellings second next members room rest others (by omega)
      rw [split, List.cons_append, List.cons_append, List.append_assoc, List.cons_append,
        readMembers, read]
      dsimp only
      rw [later]
      rfl

end

/-- A value without numbers reads back from its text, and nothing is left. -/
theorem ofText_render (value : Json) (plain : value.hasNumber = false) :
    Reading.ofText value.render = (value.reading, true) := by
  have read := readValue_spelling value (2 * value.spelling.length + 2) [] plain (by omega)
  rw [List.append_nil] at read
  rw [Reading.ofText, tokens_render value plain, read]

end SceneGraph.Json
