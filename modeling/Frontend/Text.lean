/-! # Text measured in bytes

Text is a list of characters. Every offset into it counts bytes of its UTF-8 form, so an offset may
fall inside a character; a cut at such an offset is refused, never rounded.
-/
namespace Frontend

abbrev Text := List Char

instance : Coe String Text := ⟨String.toList⟩

namespace Text

/-- Bytes of the UTF-8 form. -/
def size : Text → Nat
  | [] => 0
  | c :: t => c.utf8Size + size t

@[simp] theorem size_nil : size [] = 0 := rfl

@[simp] theorem size_cons (c : Char) (t : Text) : size (c :: t) = c.utf8Size + size t := rfl

@[simp] theorem size_append (s t : Text) : size (s ++ t) = size s + size t := by
  induction s with
  | nil => simp
  | cons c s ih => simp [ih, Nat.add_assoc]

theorem length_le_size (t : Text) : t.length ≤ size t := by
  induction t with
  | nil => simp
  | cons c t ih =>
    have := c.utf8Size_pos
    simp only [List.length_cons, size_cons]
    omega

/-- What follows the first `n` bytes, if a character starts or the text ends there. -/
def dropBytes? : Nat → Text → Option Text
  | 0, t => some t
  | _ + 1, [] => none
  | n + 1, c :: t => if c.utf8Size ≤ n + 1 then dropBytes? (n + 1 - c.utf8Size) t else none

def takeBytes? : Nat → Text → Option Text
  | 0, _ => some []
  | _ + 1, [] => none
  | n + 1, c :: t =>
    if c.utf8Size ≤ n + 1 then (takeBytes? (n + 1 - c.utf8Size) t).map (c :: ·) else none

/-- The `len` bytes from `start` on, if both ends fall between characters of the text. -/
def slice? (start len : Nat) (t : Text) : Option Text :=
  (dropBytes? start t).bind (takeBytes? len)

def upTo : Nat → Text → Text
  | _, [] => []
  | n, c :: t => if c.utf8Size ≤ n then c :: upTo (n - c.utf8Size) t else []

@[simp] theorem dropBytes?_zero (t : Text) : dropBytes? 0 t = some t := by
  cases t <;> rfl

@[simp] theorem takeBytes?_zero (t : Text) : takeBytes? 0 t = some [] := by
  cases t <;> rfl

theorem dropBytes?_size_append (s t : Text) : dropBytes? (size s) (s ++ t) = some t := by
  induction s with
  | nil => simp
  | cons c s ih =>
    have hc := c.utf8Size_pos
    obtain ⟨n, hn⟩ : ∃ n, c.utf8Size + size s = n + 1 := ⟨c.utf8Size + size s - 1, by omega⟩
    simp only [size_cons, List.cons_append, hn, dropBytes?]
    rw [if_pos (by omega), show n + 1 - c.utf8Size = size s by omega, ih]

theorem takeBytes?_size_append (s t : Text) : takeBytes? (size s) (s ++ t) = some s := by
  induction s with
  | nil => simp
  | cons c s ih =>
    have hc := c.utf8Size_pos
    obtain ⟨n, hn⟩ : ∃ n, c.utf8Size + size s = n + 1 := ⟨c.utf8Size + size s - 1, by omega⟩
    simp only [size_cons, List.cons_append, hn, takeBytes?]
    rw [if_pos (by omega), show n + 1 - c.utf8Size = size s by omega, ih]
    rfl

theorem slice?_append (s m t : Text) : slice? (size s) (size m) (s ++ m ++ t) = some m := by
  simp only [slice?, List.append_assoc, dropBytes?_size_append, Option.bind_some,
    takeBytes?_size_append]

def lines : Text → List Text
  | [] => [[]]
  | c :: t =>
    if c = '\n' then [] :: lines t
    else match lines t with
      | [] => [[c]]
      | l :: ls => (c :: l) :: ls

/-- The line that holds `offset` and where it starts, for lines of which the first starts at
`start`. A newline belongs to the line it ends, and an offset past the end to the last line. -/
def lineFrom (offset : Nat) : Nat → List Text → Nat × Text
  | start, [] => (start, [])
  | start, [l] => (start, l)
  | start, l :: ls =>
    if offset ≤ start + size l then (start, l) else lineFrom offset (start + size l + 1) ls

/-- The line of the text that holds `offset`, with the offset at which it starts. -/
def lineAt (t : Text) (offset : Nat) : Nat × Text := lineFrom offset 0 (lines t)

def ofNat (n : Nat) : Text := Nat.toDigits 10 n

def join (sep : Text) : List Text → Text
  | [] => []
  | [t] => t
  | t :: ts => t ++ sep ++ join sep ts

end Text
end Frontend
