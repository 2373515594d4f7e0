import Frontend.Pool.Capacity
import Frontend.Pool.Heap

/-! # Arrays in a pool

An array is a buffer in the heap, a length and a capacity. A full array moves to a buffer of twice the
capacity and leaves the old one behind. `toList` is what an array holds; the operations are told apart
by what they do to it.
-/
namespace Frontend.Pool

structure Vec (α : Type) where
  position : Nat
  length : Nat
  capacity : Nat
deriving DecidableEq, Repr

inductive Vec.Refusal where
  | pool (e : Failure)
  | insertBeyond (index length : Nat)
  | removeBeyond (index length : Nat)
deriving DecidableEq, Repr

def Vec.Refusal.message : Vec.Refusal → Text
  | pool e => e.message
  | insertBeyond index length =>
    "insertion index (is " ++ Text.ofNat index ++ ") should be <= len (is " ++ Text.ofNat length
      ++ ")"
  | removeBeyond index length =>
    "removal index (is " ++ Text.ofNat index ++ ") should be < len (is " ++ Text.ofNat length ++ ")"

namespace Vec
variable {α : Type} [Storable α]

def slot (v : Vec α) (i : Nat) : Place α := ⟨v.position + i * (Storable.layout α).size⟩

def toList (v : Vec α) (h : Heap) : List α := (List.range v.length).map fun i => h.load (v.slot i)

/-- Bytes of the slots from `i` on, `n` of them. -/
def bytes (v : Vec α) (i n : Nat) (h : Heap) : List UInt8 :=
  h.memory.read (v.slot i).position (n * (Storable.layout α).size)

def setBytes (v : Vec α) (i : Nat) (bs : List UInt8) (h : Heap) : Heap :=
  { h with memory := h.memory.write (v.slot i).position bs }

def create (sys : System) (capacity : Nat) (h : Heap) : Except Failure (Vec α) × Heap :=
  match bufferLayout (Storable.layout α) capacity with
  | .error e => (.error e, h)
  | .ok l =>
    match h.request sys l with
    | (.error e, h) => (.error e, h)
    | (.ok b, h) => (.ok ⟨b.position, 0, capacity⟩, h)

/-- Moves the live elements to a buffer of the next capacity. -/
def grow (sys : System) (v : Vec α) (h : Heap) : Except Failure (Vec α) × Heap :=
  match nextCapacity v.capacity with
  | .error e => (.error e, h)
  | .ok capacity =>
    match create (α := α) sys capacity h with
    | (.error e, h) => (.error e, h)
    | (.ok w, h) => (.ok { w with length := v.length }, w.setBytes 0 (v.bytes 0 v.length h) h)

def reserveOne (sys : System) (v : Vec α) (h : Heap) : Except Failure (Vec α) × Heap :=
  if v.length = v.capacity then v.grow sys h else (.ok v, h)

def push (sys : System) (v : Vec α) (x : α) (h : Heap) : Except Failure (Vec α) × Heap :=
  match v.reserveOne sys h with
  | (.error e, h) => (.error e, h)
  | (.ok v, h) => (.ok { v with length := v.length + 1 }, h.store (v.slot v.length) x)

/-- Inserts an element before slot `i`; the elements from there on move up by one. -/
def insert (sys : System) (v : Vec α) (i : Nat) (x : α) (h : Heap) :
    Except Refusal (Vec α) × Heap :=
  if v.length < i then (.error (.insertBeyond i v.length), h)
  else match v.reserveOne sys h with
    | (.error e, h) => (.error (.pool e), h)
    | (.ok v, h) =>
      let h := v.setBytes (i + 1) (v.bytes i (v.length - i) h) h
      (.ok { v with length := v.length + 1 }, h.store (v.slot i) x)

/-- Takes out the element in slot `i`; the elements after it move down by one. -/
def remove (v : Vec α) (i : Nat) (h : Heap) : Except Refusal (α × Vec α) × Heap :=
  if v.length ≤ i then (.error (.removeBeyond i v.length), h)
  else
    let x := h.load (v.slot i)
    (.ok (x, { v with length := v.length - 1 }),
      v.setBytes i (v.bytes (i + 1) (v.length - i - 1) h) h)

def get? (v : Vec α) (i : Nat) (h : Heap) : Option α :=
  if i < v.length then some (h.load (v.slot i)) else none

def set? (v : Vec α) (i : Nat) (x : α) (h : Heap) : Option Heap :=
  if i < v.length then some (h.store (v.slot i) x) else none

/-- Appends the default value and says where it is, to be filled in place. -/
def allocSlot [Inhabited α] (sys : System) (v : Vec α) (h : Heap) :
    Except Failure (Vec α × Place α) × Heap :=
  match v.push sys default h with
  | (.error e, h) => (.error e, h)
  | (.ok v, h) => (.ok (v, v.slot (v.length - 1)), h)

def reverse (v : Vec α) (h : Heap) : Heap :=
  v.setBytes 0 ((v.toList h).reverse.flatMap Storable.encode) h

def describe (display : α → Text) (v : Vec α) (h : Heap) : Text :=
  "[" ++ Text.join ", " ((v.toList h).map display) ++ "]"

@[simp] theorem length_toList (v : Vec α) (h : Heap) : (v.toList h).length = v.length := by
  simp [toList]

theorem getElem?_toList (v : Vec α) (h : Heap) (i : Nat) : (v.toList h)[i]? = v.get? i h := by
  unfold get? toList
  by_cases hi : i < v.length
  · simp [hi]
  · simp [hi]

end Vec
end Frontend.Pool
