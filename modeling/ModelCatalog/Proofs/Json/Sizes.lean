/-
  ModelCatalog/Proofs/Json/Sizes.lean
  ===================================
  **How large the text of a value is.**

  The octets of a text that is written can be counted without writing it: those of its
  leaves, and the marks between them (`Json.length_octets_render`).  So it is known how much
  a member adds (`Json.size_object_insert`), and a text in it (`Json.size_object_string`).
-/
import Mathlib.Algebra.Ring.Nat
import ModelCatalog.Json.Writer
import ModelCatalog.Proofs.Entries
import ModelCatalog.Proofs.Text.Percent

namespace ModelCatalog

open Text (octets octets_append)

/-! ### Counting -/

namespace Json

/-- The octets of texts with commas between them. -/
def separatedSize (sizes : List Nat) : Nat := sizes.sum + (sizes.length - 1)

def quotedSize (s : String) : Nat :=
  (s.toList.map fun c => ((escaped c).flatMap String.utf8EncodeChar).length).sum + 2

mutual

/-- The octets of the text of a value. -/
def size : Json → Nat
  | .null | .bool true => 4
  | .bool false => 5
  | .number (.integer n) => (octets (toString n)).length
  | .number (.double d) => (octets d.render).length
  | .string s => quotedSize s
  | .array items => separatedSize (itemSizes items) + 2
  | .object members => separatedSize (memberSizes members) + 2

def itemSizes : List Json → List Nat
  | [] => []
  | item :: rest => item.size :: itemSizes rest

def memberSizes : List (String × Json) → List Nat
  | [] => []
  | (name, value) :: rest => (quotedSize name + 1 + value.size) :: memberSizes rest

end

/-! ### Texts -/

theorem length_octets_quoted (s : String) : (octets (quoted s)).length = quotedSize s := by
  have hlength : ∀ cs : List Char, ((cs.flatMap escaped).flatMap String.utf8EncodeChar).length =
      (cs.map fun c => ((escaped c).flatMap String.utf8EncodeChar).length).sum := by
    intro cs
    rw [List.flatMap_assoc, List.length_flatMap]
  unfold quoted octets quotedSize
  rw [String.toList_ofList, List.cons_append, List.flatMap_cons, List.flatMap_append,
    List.length_append, List.length_append, hlength, Nat.add_comm]
  rfl

theorem length_octets_intercalate (ss : List String) :
    (octets (",".intercalate ss)).length = separatedSize (ss.map fun s => (octets s).length) := by
  induction ss with
  | nil => rfl
  | cons s ss ih =>
    cases ss with
    | nil => simp [separatedSize, String.intercalate_singleton]
    | cons t ss =>
      have hcomma : (octets ",").length = 1 := rfl
      rw [String.intercalate_cons_cons, octets_append, octets_append, List.length_append,
        List.length_append, ih, hcomma]
      simp only [separatedSize, List.map_cons, List.sum_cons, List.length_cons]
      omega

mutual

/-- **A text that is written has the octets of its leaves and marks.** -/
theorem length_octets_render : (v : Json) → (octets v.render).length = v.size
  | .null => rfl
  | .bool true => rfl
  | .bool false => rfl
  | .number (.integer _) => rfl
  | .number (.double _) => rfl
  | .string s => length_octets_quoted s
  | .array items => by
    have hopen : (octets "[").length = 1 := rfl
    have hclose : (octets "]").length = 1 := rfl
    rw [render, octets_append, octets_append, List.length_append, List.length_append, hopen,
      hclose, length_octets_intercalate, map_renderItems, size]
    omega
  | .object members => by
    have hopen : (octets "\x7b").length = 1 := rfl
    have hclose : (octets "\x7d").length = 1 := rfl
    rw [render, octets_append, octets_append, List.length_append, List.length_append, hopen,
      hclose, length_octets_intercalate, map_renderMembers, size]
    omega

theorem map_renderItems : (items : List Json) →
    (renderItems items).map (fun s => (octets s).length) = itemSizes items
  | [] => rfl
  | item :: rest => congrArg₂ List.cons (length_octets_render item) (map_renderItems rest)

theorem map_renderMembers : (members : List (String × Json)) →
    (renderMembers members).map (fun s => (octets s).length) = memberSizes members
  | [] => rfl
  | (name, value) :: rest => by
    have hcolon : (octets ":").length = 1 := rfl
    rw [renderMembers, List.map_cons, octets_append, octets_append, List.length_append,
      List.length_append, length_octets_quoted, hcolon, length_octets_render value,
      map_renderMembers rest, memberSizes]

end

/-! ### One member -/

theorem memberSizes_append (before after : Members) :
    memberSizes (before ++ after) = memberSizes before ++ memberSizes after := by
  induction before with
  | nil => rfl
  | cons e before ih => rw [List.cons_append, memberSizes, memberSizes, ih, List.cons_append]

/-- The text of an object grows with a text in it. -/
theorem size_object_string (before after : Members) (name s : String) :
    (Json.object (before ++ (name, .string s) :: after)).size + 2 =
      (Json.object (before ++ (name, .string "") :: after)).size + quotedSize s := by
  have hempty : quotedSize "" = 2 := rfl
  simp only [size, memberSizes_append, memberSizes, separatedSize, List.sum_append, List.sum_cons,
    List.length_append, List.length_cons, hempty]
  omega

/-- A text of so many letters.  It is never to be unfolded, as there may be millions. -/
@[irreducible] def letters (n : Nat) : String := String.ofList (List.replicate n 'n')

theorem quotedSize_letters (n : Nat) : quotedSize (letters n) = n + 2 := by
  have hone : ((escaped 'n').flatMap String.utf8EncodeChar).length = 1 := rfl
  rw [quotedSize, letters, String.toList_ofList, List.map_replicate, hone,
    List.sum_replicate_nat, Nat.mul_one]

theorem size_object_letters (before after : Members) (name : String) (n : Nat) :
    (Json.object (before ++ (name, .string (letters n)) :: after)).size =
      (Json.object (before ++ (name, .string (letters 0)) :: after)).size + n := by
  have hsize := size_object_string before after name (letters n)
  have hzero := size_object_string before after name (letters 0)
  rw [quotedSize_letters] at hsize hzero
  omega

end Json

end ModelCatalog
