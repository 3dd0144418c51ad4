import Mathlib.Data.List.Forall2
import SceneGraph.Json.Text
import SceneGraph.Json.Token

/-!
The tokens of rendered JSON. Whatever text follows, scanning a rendered value first gives the tokens
that the value is spelled with.
-/

namespace SceneGraph.Json

/-! Strings. -/

theorem scanString_mark {mark letter : Char} (marks : escaped? mark = some letter)
    (rest : List Char) : scanString ('\\' :: mark :: rest) =
      (scanString rest).map fun scanned => (.letter letter :: scanned.1, scanned.2) := by
  have noUnit : mark ≠ 'u' := by
    rintro rfl
    cases marks
  rw [scanString, marks]
  · cases scanString rest <;> rfl
  · intro _ _ _ _ _ unit
    exact absurd unit noUnit

theorem scanString_unit {first second third fourth : Char} {value : Nat}
    (unit : hexUnit? first second third fourth = some value) (rest : List Char) :
    scanString ('\\' :: 'u' :: first :: second :: third :: fourth :: rest) =
      (scanString rest).map fun scanned => (.unit value :: scanned.1, scanned.2) := by
  rw [scanString, unit]
  cases scanString rest <;> rfl

theorem scanString_letter {letter : Char} (unquoted : letter ≠ '"') (unescaped : letter ≠ '\\')
    (printable : 32 ≤ letter.toNat) (rest : List Char) : scanString (letter :: rest) =
      (scanString rest).map fun scanned => (.letter letter :: scanned.1, scanned.2) := by
  rw [scanString, if_neg (by simp [unescaped, printable])]
  · cases scanString rest <;> rfl
  · exact unquoted
  · intro _ _ _ _ _ escape
    exact absurd escape unescaped
  · intro _ _ escape
    exact absurd escape unescaped

theorem hexUnit?_hexDigit {value : Nat} (small : value < 32) :
    hexUnit? '0' '0' (hexDigit (value / 16)) (hexDigit (value % 16)) = some value := by
  have all : ∀ unit < 32, hexUnit? '0' '0' (hexDigit (unit / 16)) (hexDigit (unit % 16)) =
    some unit := by decide
  exact all value small

theorem escape_cases (letter : Char) :
    (∃ mark, escaped? mark = some letter ∧ escape letter = ['\\', mark]) ∨
    (letter.toNat < 32 ∧ escape letter =
      ['\\', 'u', '0', '0', hexDigit (letter.toNat / 16), hexDigit (letter.toNat % 16)]) ∨
    (letter ≠ '"' ∧ letter ≠ '\\' ∧ 32 ≤ letter.toNat ∧ escape letter = [letter]) := by
  rw [escape]
  split
  next quote => exact Or.inl ⟨'"', by rw [quote]; rfl, rfl⟩
  next unquoted =>
    split
    next backslash => exact Or.inl ⟨'\\', by rw [backslash]; rfl, rfl⟩
    next unescaped =>
      iterate 5
        split
        next same => exact Or.inl ⟨_, by rw [same]; rfl, rfl⟩
      split
      next control => exact Or.inr (Or.inl ⟨control, rfl⟩)
      next printable =>
        exact Or.inr (Or.inr ⟨unquoted, unescaped, Nat.le_of_not_lt printable, rfl⟩)

def Spells (piece : StringPiece) (letter : Char) : Prop :=
  piece = .letter letter ∨ letter.toNat < 32 ∧ piece = .unit letter.toNat

theorem scanString_escape (letter : Char) : ∃ piece, Spells piece letter ∧
    ∀ rest, scanString (escape letter ++ rest) =
      (scanString rest).map fun scanned => (piece :: scanned.1, scanned.2) := by
  rcases escape_cases letter with
    ⟨mark, marks, written⟩ | ⟨control, written⟩ | ⟨unquoted, unescaped, printable, written⟩
  · exact ⟨_, Or.inl rfl, fun rest => written ▸ scanString_mark marks rest⟩
  · exact ⟨_, Or.inr ⟨control, rfl⟩, fun rest =>
      written ▸ scanString_unit (hexUnit?_hexDigit control) rest⟩
  · exact ⟨_, Or.inl rfl, fun rest =>
      written ▸ scanString_letter unquoted unescaped printable rest⟩

theorem scanString_quoted (letters rest : List Char) :
    ∃ pieces, List.Forall₂ Spells pieces letters ∧
      scanString (letters.flatMap escape ++ '"' :: rest) = some (pieces, rest) := by
  induction letters with
  | nil => exact ⟨[], .nil, rfl⟩
  | cons letter others ih =>
      obtain ⟨pieces, spelled, scanned⟩ := ih
      obtain ⟨piece, spells, escaped⟩ := scanString_escape letter
      refine ⟨piece :: pieces, .cons spells spelled, ?_⟩
      rw [List.flatMap_cons, List.append_assoc, escaped, scanned]
      rfl

theorem joinPieces_cons {piece : StringPiece} {letter : Char} (spells : Spells piece letter)
    (others : List StringPiece) :
    joinPieces (piece :: others) = (letter :: ·) <$> joinPieces others := by
  rcases spells with rfl | ⟨control, rfl⟩
  · rw [joinPieces]
  · have notHigh : isHighSurrogate letter.toNat = false := by
      simp [isHighSurrogate]
      omega
    have notLow : isLowSurrogate letter.toNat = false := by
      simp [isLowSurrogate]
      omega
    rcases others with _ | ⟨_ | low, others⟩ <;>
      simp [joinPieces, notHigh, notLow, Char.ofNat_toNat]

theorem joinPieces_of_spells {pieces : List StringPiece} {letters : List Char}
    (spelled : List.Forall₂ Spells pieces letters) : joinPieces pieces = some letters := by
  induction spelled with
  | nil => rfl
  | cons spells _ ih =>
      rw [joinPieces_cons spells, ih]
      rfl

/-! Texts. -/

structure Scans (text : List Char) (tokens : List Token) : Prop where
  short : tokens.length ≤ text.length
  scanned : ∀ room rest,
    scanTokens (tokens.length + room) (text ++ rest) = tokens ++ scanTokens room rest

namespace Scans

variable {text later : List Char} {tokens laterTokens : List Token}

theorem nil : Scans [] [] := ⟨Nat.le_refl 0, fun room rest => by simp⟩

theorem append (scans : Scans text tokens) (laterScans : Scans later laterTokens) :
    Scans (text ++ later) (tokens ++ laterTokens) := by
  constructor
  · simpa using Nat.add_le_add scans.short laterScans.short
  · intro room rest
    rw [List.length_append, Nat.add_assoc, List.append_assoc, scans.scanned, laterScans.scanned,
      List.append_assoc]

theorem token {token : Token} {first : Char} (scanned : ∀ room rest,
    scanTokens (room + 1) (first :: text ++ rest) = token :: scanTokens room rest) :
    Scans (first :: text) [token] := by
  constructor
  · simp
  · intro room rest
    rw [List.length_singleton, Nat.add_comm]
    exact scanned room rest

theorem quote (value : String) : Scans (Json.quote value).toList [.string (some value)] := by
  rw [Json.quote, String.toList_ofList]
  refine token fun room rest => ?_
  obtain ⟨pieces, spelled, scanned⟩ := scanString_quoted value.toList rest
  rw [List.cons_append, List.append_assoc, List.singleton_append, scanTokens, scanned]
  simp [joinPieces_of_spells spelled]

end Scans

end SceneGraph.Json
