import Frontend.Proofs.Pool.Effect

/-! # Slots of an array

Elements are moved as bytes, many at once. What such a move does is told slot by slot: a slot that was
written reads its share of the bytes, and every other slot reads as before. No two slots have to be told
apart for that, since the bytes are read before any is written.
-/
namespace Frontend.Pool

namespace Memory

theorem getElem?_read (m : Memory) (position n i : Nat) :
    (m.read position n)[i]? = if i < n then some (m.byte (position + i)) else none := by
  induction n generalizing position i with
  | zero => rfl
  | succ n ih =>
    cases i with
    | zero => simp [read]
    | succ i => simp [read, ih, Nat.add_assoc, Nat.add_comm 1 i]

theorem take_drop_read {m : Memory} {position n i k : Nat} (h : i + k ≤ n) :
    ((m.read position n).drop i).take k = m.read (position + i) k := by
  apply List.ext_getElem?
  intro j
  by_cases hj : j < k
  · rw [List.getElem?_take_of_lt hj, List.getElem?_drop, getElem?_read, getElem?_read, if_pos hj,
      if_pos (by omega), Nat.add_assoc]
  · rw [List.getElem?_eq_none, List.getElem?_eq_none]
    · rw [length_read]
      omega
    · rw [List.length_take]
      omega

theorem read_write_of_inside {m : Memory} {position i k : Nat} {bs : List UInt8}
    (h : i + k ≤ bs.length) :
    (m.write position bs).read (position + i) k = (bs.drop i).take k := by
  rw [← take_drop_read h, read_write]

end Memory

namespace Vec
variable {α : Type} [Storable α] {v w : Vec α} {h : Heap} {a n i j : Nat}

/-- The share of slot `i` in the bytes of slots. -/
def share (α : Type) [Storable α] (bs : List UInt8) (i : Nat) : List UInt8 :=
  (bs.drop (i * (Storable.layout α).size)).take (Storable.layout α).size

theorem share_bytes (hi : i < n) :
    share α (v.bytes a n h) i = h.memory.read (v.slot (a + i)).position (Storable.layout α).size := by
  have hslot : i + 1 ≤ n := hi
  have hroom := slots_le (Storable.layout α).size hslot
  rw [Nat.one_mul] at hroom
  rw [share, bytes, Memory.take_drop_read hroom]
  simp only [slot, Nat.add_mul, Nat.add_assoc]

theorem share_flatMap {xs : List α} (hi : i < xs.length) :
    share α (xs.flatMap Storable.encode) i = Storable.encode xs[i] := by
  induction xs generalizing i with
  | nil => cases hi
  | cons x xs ih =>
    have hx := Storable.length_encode x
    unfold share at ih ⊢
    cases i with
    | zero => simp [hx]
    | succ i =>
      rw [Nat.add_mul, Nat.one_mul, Nat.add_comm, List.flatMap_cons, ← List.drop_drop,
        List.drop_left' hx, ih (Nat.lt_of_succ_lt_succ hi), List.getElem_cons_succ]

theorem load_setBytes {bs : List UInt8} (hl : bs.length = n * (Storable.layout α).size) :
    (v.setBytes a bs h).load (v.slot j) =
      if a ≤ j ∧ j < a + n then Storable.decode (share α bs (j - a)) else h.load (v.slot j) := by
  unfold Heap.load setBytes slot
  split
  · next hin =>
    obtain ⟨d, rfl⟩ := Nat.exists_eq_add_of_le hin.1
    have hslot : d + 1 ≤ n := by omega
    have hroom := slots_le (Storable.layout α).size hslot
    rw [Nat.one_mul, ← hl] at hroom
    rw [Nat.add_mul, ← Nat.add_assoc, Memory.read_write_of_inside hroom, Nat.add_sub_cancel_left,
      share]
  · next hout =>
    have hside : j + 1 ≤ a ∨ a + n ≤ j := by omega
    rw [Memory.read_write_of_disjoint]
    rcases hside with hside | hside
    · have hroom := slots_le (Storable.layout α).size hside
      left
      dsimp only
      omega
    · have hroom := slots_le (Storable.layout α).size hside
      right
      dsimp only
      omega

/-- Moving `n` slots, from slot `b` on of one array to slot `a` on of another or of the same. -/
theorem load_setBytes_bytes {b : Nat} : (w.setBytes a (v.bytes b n h) h).load (w.slot j) =
    if a ≤ j ∧ j < a + n then h.load (v.slot (b + (j - a))) else h.load (w.slot j) := by
  have hl : (v.bytes b n h).length = n * (Storable.layout α).size := Memory.length_read _ _ _
  rw [load_setBytes hl]
  split
  · next hin =>
    rw [share_bytes (by omega)]
    rfl
  · rfl

theorem load_store_slot {x : α} :
    (h.store (v.slot i) x).load (v.slot j) = if j = i then x else h.load (v.slot j) := by
  have hone : (Storable.encode x).length = 1 * (Storable.layout α).size := by
    rw [Storable.length_encode, Nat.one_mul]
  have hset : h.store (v.slot i) x = v.setBytes i (Storable.encode x) h := rfl
  rw [hset, load_setBytes hone]
  by_cases hj : j = i
  · subst hj
    rw [if_pos (by omega), if_pos rfl, Nat.sub_self, share, Nat.zero_mul, List.drop_zero,
      List.take_of_length_le (Nat.le_of_eq (Storable.length_encode x)), Storable.decode_encode]
  · rw [if_neg (by omega), if_neg hj]

/-- An array holds a list once it has its length and each slot reads the element there. -/
theorem toList_eq {xs : List α} (hl : v.length = xs.length)
    (hx : ∀ j, ∀ hj : j < xs.length, h.load (v.slot j) = xs[j]) : v.toList h = xs := by
  apply List.ext_getElem
  · rw [length_toList, hl]
  · intro j hj hj'
    have hget := getElem?_toList v h j
    rw [List.getElem?_eq_getElem hj, get?, if_pos (by omega), hx j hj'] at hget
    exact Option.some.inj hget

theorem load_slot (hj : j < (v.toList h).length) : h.load (v.slot j) = (v.toList h)[j] := by
  have hlen := length_toList v h
  have hget := getElem?_toList v h j
  rw [List.getElem?_eq_getElem hj, get?, if_pos (by omega)] at hget
  exact (Option.some.inj hget).symm

/-! ## What is done to the elements -/

theorem toList_appended (x : α) :
    ({ v with length := v.length + 1 } : Vec α).toList (h.store (v.slot v.length) x) =
      v.toList h ++ [x] := by
  have hlen := length_toList v h
  apply toList_eq
  · simp
  · intro j hj
    have hload : (h.store (v.slot v.length) x).load (v.slot j) = _ := load_store_slot
    change (h.store (v.slot v.length) x).load (v.slot j) = _
    rw [hload]
    by_cases hlast : j = v.length
    · subst hlast
      rw [if_pos rfl, List.getElem_append_right (by omega)]
      simp
    · have hlt : j < (v.toList h).length := by
        simp only [List.length_append, List.length_singleton] at hj
        omega
      rw [if_neg hlast, load_slot hlt, List.getElem_append_left hlt]

theorem toList_inserted (hi : i ≤ v.length) (x : α) :
    ({ v with length := v.length + 1 } : Vec α).toList
        ((v.setBytes (i + 1) (v.bytes i (v.length - i) h) h).store (v.slot i) x) =
      (v.toList h).insertIdx i x := by
  have hlen := length_toList v h
  apply toList_eq
  · rw [List.length_insertIdx_of_le_length (by omega), hlen]
  · intro j hj
    have hbound := hj
    rw [List.length_insertIdx_of_le_length (by omega), hlen] at hbound
    change ((v.setBytes (i + 1) (v.bytes i (v.length - i) h) h).store (v.slot i) x).load (v.slot j) = _
    rw [load_store_slot, load_setBytes_bytes, List.getElem_insertIdx]
    rcases Nat.lt_trichotomy j i with hlt | rfl | hgt
    · rw [if_neg (by omega), if_neg (by omega), dif_pos hlt, load_slot]
    · simp
    · obtain ⟨d, rfl⟩ := Nat.exists_eq_add_of_lt hgt
      rw [if_neg (by omega), if_pos (by omega), dif_neg (by omega), dif_neg (by omega), load_slot]
      · congr 1
        omega
      · omega

theorem toList_removed (hi : i < v.length) :
    ({ v with length := v.length - 1 } : Vec α).toList
        (v.setBytes i (v.bytes (i + 1) (v.length - i - 1) h) h) =
      (v.toList h).eraseIdx i := by
  have hlen := length_toList v h
  apply toList_eq
  · rw [List.length_eraseIdx_of_lt (by omega), hlen]
  · intro j hj
    rw [List.length_eraseIdx_of_lt (by omega), hlen] at hj
    change (v.setBytes i (v.bytes (i + 1) (v.length - i - 1) h) h).load (v.slot j) = _
    rw [load_setBytes_bytes, List.getElem_eraseIdx]
    by_cases hlt : j < i
    · rw [if_neg (by omega), dif_pos hlt, load_slot]
    · obtain ⟨d, rfl⟩ := Nat.exists_eq_add_of_le (Nat.le_of_not_lt hlt)
      rw [if_pos (by omega), dif_neg hlt, load_slot]
      · congr 1
        omega
      · omega

theorem toList_stored (i : Nat) (x : α) :
    v.toList (h.store (v.slot i) x) = (v.toList h).set i x := by
  apply toList_eq
  · simp
  · intro j hj
    rw [List.length_set] at hj
    rw [load_store_slot, List.getElem_set, load_slot hj]
    simp only [eq_comm]

theorem toList_reversed (v : Vec α) (h : Heap) : v.toList (v.reverse h) = (v.toList h).reverse := by
  have hlen := length_toList v h
  apply toList_eq
  · simp
  · intro j hj
    rw [reverse, load_setBytes (length_flatMap_encode _)]
    simp only [List.length_reverse, hlen] at hj ⊢
    rw [if_pos (by omega), Nat.sub_zero, share_flatMap (by simpa [hlen] using hj),
      Storable.decode_encode]

theorem toList_copied {h' : Heap} (hm : h'.memory = h.memory) :
    ({ w with length := v.length } : Vec α).toList
      (w.setBytes 0 (v.bytes 0 v.length h') h') = v.toList h := by
  have hlen := length_toList v h
  apply toList_eq
  · exact hlen.symm
  · intro j hj
    have hcopy : (w.setBytes 0 (v.bytes 0 v.length h') h').load (w.slot j) = _ := load_setBytes_bytes
    have hsame : h'.load (v.slot j) = h.load (v.slot j) := by rw [Heap.load, hm, Heap.load]
    change (w.setBytes 0 (v.bytes 0 v.length h') h').load (w.slot j) = _
    rw [hcopy, if_pos (by omega), Nat.sub_zero, Nat.zero_add, hsame, load_slot hj]

end Vec
end Frontend.Pool
