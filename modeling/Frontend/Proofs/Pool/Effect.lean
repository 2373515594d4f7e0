import Frontend.Pool.Vec
import Frontend.Proofs.Pool.Accounting

/-! # What an operation touches

An operation on a heap asks the pool for at most one block and writes to that block or to the place
of the one value or array that it is about. All other bytes handed out before stay as they are.
-/
namespace Frontend.Pool

/-- What lives in a heap: a value in a block of its own, or an array in its current buffer. -/
inductive Resident : Type 1 where
  | value {α : Type} [Storable α] (p : Place α)
  | array {α : Type} [Storable α] (v : Vec α)

namespace Resident

def position : Resident → Nat
  | value p => p.position
  | array v => v.position

def extent : Resident → Nat
  | @value α _ _ => (Storable.layout α).size
  | @array α _ v => v.capacity * (Storable.layout α).size

def stop (r : Resident) : Nat := r.position + r.extent

def Covers (r : Resident) (n : Nat) : Prop := r.position ≤ n ∧ n < r.stop

def Fits : Resident → Prop
  | value _ => True
  | array v => v.length ≤ v.capacity

def Same (h h' : Heap) : Resident → Prop
  | value p => h'.load p = h.load p
  | array v => v.toList h' = v.toList h

end Resident

theorem slots_le {i n capacity : Nat} (size : Nat) (h : i + n ≤ capacity) :
    i * size + n * size ≤ capacity * size := by
  rw [← Nat.add_mul]
  exact Nat.mul_le_mul_right size h

theorem Heap.load_congr {α : Type} [Storable α] {h h' : Heap} {p : Place α}
    (hb : ∀ n, p.position ≤ n → n < p.position + (Storable.layout α).size →
      h'.memory.byte n = h.memory.byte n) : h'.load p = h.load p := by
  unfold load
  rw [Memory.read_congr hb]

theorem Resident.same_of_bytes {h h' : Heap} {r : Resident} (hf : r.Fits)
    (hb : ∀ n, r.Covers n → h'.memory.byte n = h.memory.byte n) : r.Same h h' := by
  cases r with
  | value p => exact Heap.load_congr fun n hle hlt => hb n ⟨hle, hlt⟩
  | @array α _ v =>
    apply List.map_congr_left
    intro i hi
    have hlt : i + 1 ≤ v.capacity := Nat.le_trans (List.mem_range.1 hi) hf
    have hroom := slots_le (Storable.layout α).size hlt
    rw [Nat.one_mul] at hroom
    apply Heap.load_congr
    intro n hle hn
    apply hb n
    simp only [Vec.slot] at hle hn
    constructor
    · simp only [position]
      omega
    · simp only [stop, position, extent]
      omega

/-- A resident is where the old one was, or in the block that the pool hands out for the request. -/
inductive Settled (sys : System) (h : Heap) (asked : Option Layout) (old : Option Resident)
    (r : Resident) : Prop where
  | stays {r₀ : Resident} : old = some r₀ → r.position = r₀.position → r.extent = r₀.extent →
      Settled sys h asked old r
  | moves {l : Layout} {b : Block} : asked = some l → (h.pool.alloc sys l).1 = .ok b →
      r.position = b.position → r.extent = b.size → Settled sys h asked old r

/-- From `h` to `h'` the pool answered the request, if there was one, and no byte handed out before
changed but those of the old resident; the new one has settled. -/
structure Effect (sys : System) (h : Heap) (asked : Option Layout) (old new : Option Resident)
    (h' : Heap) : Prop where
  pool : h'.pool = asked.elim h.pool fun l => (h.pool.alloc sys l).2
  bytes : ∀ n < h.pool.used, (∀ r, old = some r → ¬ r.Covers n) →
    h'.memory.byte n = h.memory.byte n
  settled : ∀ r, new = some r → Settled sys h asked old r
  fits : ∀ r, new = some r → r.Fits

theorem Segment.Holds.at_base {s : Segment} {used : Nat} {l : Layout} {b : Block}
    (h : s.Holds used l b) : s.Holds s.base l b :=
  { h with base_le := Nat.le_refl _, used_le := Nat.le_trans h.base_le h.used_le }

/-- A block handed out starts where no byte was handed out before, and lies in one segment. -/
theorem Sound.alloc_ok {c : Config} {p : Pool} {sys : System} {l : Layout} {b : Block}
    (hp : p.Sound c) (h : (p.alloc sys l).1 = .ok b) :
    p.used ≤ b.position ∧ b.stop = (p.alloc sys l).2.used ∧
      ∃ s ∈ (p.alloc sys l).2.segments, s.Holds s.base l b := by
  have ha : Answers sys l p (p.alloc sys l) := alloc_answers hp.chunk_pos
  generalize p.alloc sys l = r at h ha
  cases ha with
  | refused => cases h
  | fits hb =>
    cases h
    exact ⟨hb.used_le, rfl, p.current, current_mem_segments p, hb.at_base⟩
  | @fresh s b hbase _ _ _ _ hb =>
    cases h
    have hle := hb.used_le
    rw [hbase] at hle
    refine ⟨Nat.le_trans hp.used_le hle, rfl, s, ?_, hb⟩
    exact current_mem_segments _

variable {sys : System} {h h' : Heap} {asked : Option Layout} {old : Option Resident} {c : Config}

namespace Effect

variable {new : Option Resident} {r : Resident}

theorem rest (hf : ∀ r, old = some r → r.Fits) : Effect sys h none old old h where
  pool := rfl
  bytes _ _ _ := rfl
  settled _ hr := .stays hr rfl rfl
  fits := hf

theorem idle (hf : r.Fits) : Effect sys h none (some r) (some r) h := by
  apply rest
  rintro r' ⟨⟩
  exact hf

theorem request (l : Layout) (hf : ∀ r, old = some r → r.Fits) :
    Effect sys h (some l) old old (h.request sys l).2 where
  pool := rfl
  bytes _ _ _ := rfl
  settled _ hr := .stays hr rfl rfl
  fits := hf

theorem granted {l : Layout} {b : Block} (hb : (h.request sys l).1 = .ok b)
    (hpos : r.position = b.position) (hext : r.extent = l.size) (hf : r.Fits) (hp : h.pool.Sound c) :
    Effect sys h (some l) old (some r) (h.request sys l).2 where
  pool := rfl
  bytes _ _ _ := rfl
  settled r' hr := by
    cases hr
    obtain ⟨-, -, s, -, hs⟩ := hp.alloc_ok hb
    exact .moves rfl hb hpos (hext.trans hs.size.symm)
  fits r' hr := by
    cases hr
    exact hf

theorem write (e : Effect sys h asked old (some r) h') (hp : h.pool.Sound c) {position : Nat}
    {bs : List UInt8} (hlo : r.position ≤ position) (hhi : position + bs.length ≤ r.stop) :
    Effect sys h asked old (some r) { h' with memory := h'.memory.write position bs } where
  pool := e.pool
  bytes n hn hout := by
    -- Where the resident stayed, `n` is not its; where it moved, `n` lies before its fresh block.
    have hmiss : n < position ∨ position + bs.length ≤ n := by
      cases e.settled r rfl with
      | @stays r₀ hr₀ hpos hext =>
        have hnot := hout r₀ hr₀
        simp only [Resident.Covers, Resident.stop] at hnot hhi
        omega
      | moves hl hb hpos hext =>
        have hfresh := (hp.alloc_ok hb).1
        omega
    change (h'.memory.write position bs).byte n = _
    rw [Memory.byte_write_of_disjoint hmiss]
    exact e.bytes n hn hout
  settled := e.settled
  fits := e.fits

section
variable {α : Type} [Storable α] {v : Vec α}

theorem resize (e : Effect sys h asked old (some (.array v)) h') {n : Nat} (hn : n ≤ v.capacity) :
    Effect sys h asked old (some (.array ({ v with length := n } : Vec α))) h' where
  pool := e.pool
  bytes := e.bytes
  settled r hr := by
    cases hr
    cases e.settled _ rfl with
    | stays hr₀ hpos hext => exact .stays hr₀ hpos hext
    | moves hl hb hpos hext => exact .moves hl hb hpos hext
  fits r hr := by
    cases hr
    exact hn

theorem setBytes (e : Effect sys h asked old (some (.array v)) h') (hp : h.pool.Sound c) {i n : Nat}
    {bs : List UInt8} (hn : i + n ≤ v.capacity) (hl : bs.length = n * (Storable.layout α).size) :
    Effect sys h asked old (some (.array v)) (v.setBytes i bs h') := by
  have hroom := slots_le (Storable.layout α).size hn
  apply e.write hp
  · exact Nat.le_add_right _ _
  · simp only [Vec.slot, Resident.stop, Resident.position, Resident.extent, hl]
    omega

theorem storeSlot (e : Effect sys h asked old (some (.array v)) h') (hp : h.pool.Sound c) {i : Nat}
    (hi : i < v.capacity) (x : α) :
    Effect sys h asked old (some (.array v)) (h'.store (v.slot i) x) := by
  have hone : (Storable.encode x).length = 1 * (Storable.layout α).size := by
    rw [Storable.length_encode, Nat.one_mul]
  exact e.setBytes hp hi hone

end
end Effect

/-- The request that moving to a larger buffer makes, if the array is full. -/
def Vec.room {α : Type} [Storable α] (v : Vec α) : Option Layout :=
  if v.length = v.capacity then
    ((nextCapacity v.capacity).bind (bufferLayout (Storable.layout α))).toOption
  else none

theorem size_bufferLayout {element l : Layout} {n : Nat} (h : bufferLayout element n = .ok l) :
    l.size = n * element.size := by
  unfold bufferLayout at h
  cases ha : element.array? n with
  | none =>
    rw [ha] at h
    cases h
  | some l' =>
    rw [ha] at h
    cases h
    rw [(Layout.size_array? ha).1, Nat.mul_comm]

namespace Vec

variable {α : Type} [Storable α] {v w : Vec α}

theorem create_effect (sys : System) (hp : h.pool.Sound c) (hf : ∀ r, old = some r → r.Fits) (capacity : Nat) :
    Effect sys h (bufferLayout (Storable.layout α) capacity).toOption old
        ((create (α := α) sys capacity h).1.toOption.elim old fun w => some (.array w))
        (create (α := α) sys capacity h).2 ∧
      ∀ w : Vec α, (create sys capacity h).1 = .ok w → w.length = 0 ∧ w.capacity = capacity := by
  unfold create
  cases hl : bufferLayout (Storable.layout α) capacity with
  | error e => exact ⟨.rest hf, fun w hw => by cases hw⟩
  | ok l =>
    have hsize := size_bufferLayout hl
    dsimp only
    cases hr : h.request sys l with
    | mk answer h₁ =>
      cases answer with
      | error e =>
        have he : Effect sys h (some l) old old (h.request sys l).2 := .request l hf
        rw [hr] at he
        exact ⟨he, fun w hw => by cases hw⟩
      | ok b =>
        have hb : (h.request sys l).1 = .ok b := by rw [hr]
        have he : Effect sys h (some l) old (some (.array (⟨b.position, 0, capacity⟩ : Vec α)))
            (h.request sys l).2 := .granted hb rfl hsize.symm (Nat.zero_le _) hp
        rw [hr] at he
        refine ⟨he, fun w hw => ?_⟩
        cases hw
        exact ⟨rfl, rfl⟩

theorem room_of_full (hfull : v.length = v.capacity) {d : Nat} (hd : nextCapacity v.capacity = .ok d) :
    v.room = (bufferLayout (Storable.layout α) d).toOption := by
  rw [room, if_pos hfull, hd]
  rfl

theorem reserveOne_effect (sys : System) (hp : h.pool.Sound c) (hv : v.length ≤ v.capacity) :
    Effect sys h v.room (some (.array v))
        ((v.reserveOne sys h).1.toOption.elim (some (.array v)) fun w => some (.array w))
        (v.reserveOne sys h).2 ∧
      ∀ w, (v.reserveOne sys h).1 = .ok w → w.length = v.length ∧ w.length < w.capacity := by
  have hf : ∀ r, some (Resident.array v) = some r → r.Fits := by
    rintro r ⟨⟩
    exact hv
  unfold reserveOne
  by_cases hfull : v.length = v.capacity
  · rw [if_pos hfull]
    unfold grow
    cases hd : nextCapacity v.capacity with
    | error e =>
      have hroom : v.room = none := by
        rw [room, if_pos hfull, hd]
        rfl
      rw [hroom]
      exact ⟨.rest hf, fun w hw => by cases hw⟩
    | ok d =>
      have hlt := lt_nextCapacity hd
      obtain ⟨he, hw⟩ := create_effect (α := α) sys hp hf d
      rw [room_of_full hfull hd]
      dsimp only
      cases hc : create (α := α) sys d h with
      | mk answer h₁ =>
        rw [hc] at he hw
        cases answer with
        | error e => exact ⟨he, fun w hw => by cases hw⟩
        | ok w =>
          obtain ⟨hlen, hcap⟩ := hw w rfl
          have hbytes : (v.bytes 0 v.length h₁).length = v.length * (Storable.layout α).size :=
            Memory.length_read _ _ _
          have hle : v.length ≤ w.capacity := by omega
          have hcopy := he.setBytes hp (i := 0) (by omega) hbytes
          refine ⟨hcopy.resize hle, fun w' hw' => ?_⟩
          cases hw'
          exact ⟨rfl, by change v.length < w.capacity; omega⟩
  · have hroom : v.room = none := by rw [room, if_neg hfull]
    rw [if_neg hfull, hroom]
    refine ⟨.idle hv, fun w hw => ?_⟩
    cases hw
    exact ⟨rfl, by omega⟩

theorem push_effect (sys : System) (hp : h.pool.Sound c) (hv : v.length ≤ v.capacity) (x : α) :
    Effect sys h v.room (some (.array v))
      ((v.push sys x h).1.toOption.elim (some (.array v)) fun w => some (.array w))
      (v.push sys x h).2 := by
  obtain ⟨he, hw⟩ := reserveOne_effect sys hp hv
  unfold push
  cases hr : v.reserveOne sys h with
  | mk answer h₁ =>
    rw [hr] at he hw
    cases answer with
    | error e => exact he
    | ok w =>
      have hcap := (hw w rfl).2
      exact (he.storeSlot hp hcap x).resize hcap

theorem allocSlot_effect [Inhabited α] (sys : System) (hp : h.pool.Sound c)
    (hv : v.length ≤ v.capacity) :
    Effect sys h v.room (some (.array v))
      ((v.allocSlot sys h).1.toOption.elim (some (.array v)) fun r => some (.array r.1))
      (v.allocSlot sys h).2 := by
  have he := push_effect sys hp hv default
  unfold allocSlot
  cases hr : v.push sys default h with
  | mk answer h₁ =>
    rw [hr] at he
    cases answer with
    | error e => exact he
    | ok w => exact he

theorem insert_effect (sys : System) (hp : h.pool.Sound c) (hv : v.length ≤ v.capacity) (i : Nat)
    (x : α) : Effect sys h (if v.length < i then none else v.room) (some (.array v))
      ((v.insert sys i x h).1.toOption.elim (some (.array v)) fun w => some (.array w))
      (v.insert sys i x h).2 := by
  obtain ⟨he, hw⟩ := reserveOne_effect sys hp hv
  unfold insert
  by_cases hi : v.length < i
  · rw [if_pos hi, if_pos hi]
    exact .idle hv
  · rw [if_neg hi, if_neg hi]
    cases hr : v.reserveOne sys h with
    | mk answer h₁ =>
      rw [hr] at he hw
      cases answer with
      | error e => exact he
      | ok w =>
        obtain ⟨hlen, hcap⟩ := hw w rfl
        have hbytes : (w.bytes i (w.length - i) h₁).length =
            (w.length - i) * (Storable.layout α).size := Memory.length_read _ _ _
        have hmove := he.setBytes hp (i := i + 1) (by omega) hbytes
        exact (hmove.storeSlot hp (i := i) (by omega) x).resize hcap

theorem setBytes_effect (sys : System) (hp : h.pool.Sound c) (hv : v.length ≤ v.capacity) {i n : Nat}
    {bs : List UInt8} (hn : i + n ≤ v.length) (hl : bs.length = n * (Storable.layout α).size) :
    Effect sys h none (some (.array v)) (some (.array v)) (v.setBytes i bs h) := by
  have he : Effect sys h none (some (.array v)) (some (.array v)) h := .idle hv
  exact he.setBytes hp (Nat.le_trans hn hv) hl

theorem remove_effect (sys : System) (hp : h.pool.Sound c) (hv : v.length ≤ v.capacity) (i : Nat) :
    Effect sys h none (some (.array v))
      ((v.remove i h).1.toOption.elim (some (.array v)) fun r => some (.array r.2))
      (v.remove i h).2 := by
  unfold remove
  by_cases hi : v.length ≤ i
  · rw [if_pos hi]
    exact .idle hv
  · rw [if_neg hi]
    have hbytes : (v.bytes (i + 1) (v.length - i - 1) h).length =
        (v.length - i - 1) * (Storable.layout α).size := Memory.length_read _ _ _
    have he := setBytes_effect sys hp hv (i := i) (by omega) hbytes
    exact he.resize (by omega)

theorem set_effect (sys : System) (hp : h.pool.Sound c) (hv : v.length ≤ v.capacity) {i : Nat} {x : α}
    (hs : v.set? i x h = some h') :
    Effect sys h none (some (.array v)) (some (.array v)) h' := by
  unfold set? at hs
  split at hs
  · next hi =>
    cases hs
    have hone : (Storable.encode x).length = 1 * (Storable.layout α).size := by
      rw [Storable.length_encode, Nat.one_mul]
    exact setBytes_effect sys hp hv hi hone
  · cases hs

theorem length_flatMap_encode (xs : List α) :
    (xs.flatMap Storable.encode).length = xs.length * (Storable.layout α).size := by
  induction xs with
  | nil => simp
  | cons x xs ih =>
    rw [List.flatMap_cons, List.length_append, ih, Storable.length_encode, List.length_cons,
      Nat.add_mul, Nat.one_mul, Nat.add_comm]

theorem reverse_effect (sys : System) (hp : h.pool.Sound c) (hv : v.length ≤ v.capacity) :
    Effect sys h none (some (.array v)) (some (.array v)) (v.reverse h) := by
  have hbytes := length_flatMap_encode (v.toList h).reverse
  rw [List.length_reverse, length_toList] at hbytes
  exact setBytes_effect sys hp hv (by omega) hbytes

end Vec

section
variable {α : Type} [Storable α]

theorem Heap.put_effect (sys : System) (hp : h.pool.Sound c) (hf : ∀ r, old = some r → r.Fits)
    (x : α) : Effect sys h (some (Storable.layout α)) old
      ((h.put sys x).1.toOption.elim old fun p => some (.value p)) (h.put sys x).2 := by
  unfold put
  cases hr : h.request sys (Storable.layout α) with
  | mk answer h₁ =>
    cases answer with
    | error e =>
      have he : Effect sys h (some (Storable.layout α)) old old (h.request sys (Storable.layout α)).2 :=
        .request _ hf
      rw [hr] at he
      exact he
    | ok b =>
      have hb : (h.request sys (Storable.layout α)).1 = .ok b := by rw [hr]
      have he : Effect sys h (some (Storable.layout α)) old (some (.value (⟨b.position⟩ : Place α)))
          (h.request sys (Storable.layout α)).2 := .granted hb rfl rfl trivial hp
      rw [hr] at he
      apply he.write hp (Nat.le_refl _)
      rw [Storable.length_encode]
      exact Nat.le_refl _

theorem Heap.store_effect (sys : System) (hp : h.pool.Sound c) (p : Place α) (x : α) :
    Effect sys h none (some (.value p)) (some (.value p)) (h.store p x) := by
  have he : Effect sys h none (some (.value p)) (some (.value p)) h := .idle trivial
  apply he.write hp (Nat.le_refl _)
  rw [Storable.length_encode]
  exact Nat.le_refl _

end

/-- One operation on a heap, about a resident or about none yet: what it asks the pool for, what it
leaves and in which heap. A new resident is not there if it was refused; an array that was refused a
buffer is as it was. -/
inductive Operation (sys : System) (h : Heap) :
    Option Resident → Option Layout → Option Resident → Heap → Prop where
  | put {α : Type} [Storable α] (x : α) : Operation sys h none (some (Storable.layout α))
      ((h.put sys x).1.toOption.elim none fun p => some (.value p)) (h.put sys x).2
  | store {α : Type} [Storable α] (p : Place α) (x : α) :
      Operation sys h (some (.value p)) none (some (.value p)) (h.store p x)
  | create {α : Type} [Storable α] (capacity : Nat) :
      Operation sys h none (bufferLayout (Storable.layout α) capacity).toOption
        ((Vec.create (α := α) sys capacity h).1.toOption.elim none fun v => some (.array v))
        (Vec.create (α := α) sys capacity h).2
  | push {α : Type} [Storable α] (v : Vec α) (x : α) : Operation sys h (some (.array v)) v.room
      ((v.push sys x h).1.toOption.elim (some (.array v)) fun w => some (.array w))
      (v.push sys x h).2
  | allocSlot {α : Type} [Storable α] [Inhabited α] (v : Vec α) :
      Operation sys h (some (.array v)) v.room
        ((v.allocSlot sys h).1.toOption.elim (some (.array v)) fun r => some (.array r.1))
        (v.allocSlot sys h).2
  | insert {α : Type} [Storable α] (v : Vec α) (i : Nat) (x : α) :
      Operation sys h (some (.array v)) (if v.length < i then none else v.room)
        ((v.insert sys i x h).1.toOption.elim (some (.array v)) fun w => some (.array w))
        (v.insert sys i x h).2
  | remove {α : Type} [Storable α] (v : Vec α) (i : Nat) : Operation sys h (some (.array v)) none
      ((v.remove i h).1.toOption.elim (some (.array v)) fun r => some (.array r.2))
      (v.remove i h).2
  | set {α : Type} [Storable α] {v : Vec α} {i : Nat} {x : α} {h' : Heap} :
      v.set? i x h = some h' → Operation sys h (some (.array v)) none (some (.array v)) h'
  | reverse {α : Type} [Storable α] (v : Vec α) :
      Operation sys h (some (.array v)) none (some (.array v)) (v.reverse h)

theorem Operation.effect {new : Option Resident} (ho : Operation sys h old asked new h')
    (hp : h.pool.Sound c) (hf : ∀ r, old = some r → r.Fits) : Effect sys h asked old new h' := by
  cases ho with
  | put x => exact Heap.put_effect sys hp hf x
  | store p x => exact Heap.store_effect sys hp p x
  | create capacity => exact (Vec.create_effect sys hp hf capacity).1
  | push v x => exact Vec.push_effect sys hp (hf _ rfl) x
  | allocSlot v => exact Vec.allocSlot_effect sys hp (hf _ rfl)
  | insert v i x => exact Vec.insert_effect sys hp (hf _ rfl) i x
  | remove v i => exact Vec.remove_effect sys hp (hf _ rfl) i
  | set hs => exact Vec.set_effect sys hp (hf _ rfl) hs
  | reverse v => exact Vec.reverse_effect sys hp (hf _ rfl)

end Frontend.Pool
