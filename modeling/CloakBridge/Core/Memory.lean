import CloakBridge.Core.Bytes

/-!
# Memory addressed by bytes

Stretches of bytes are read and written at any address. A word takes 32 bytes, the
most significant one first, and words need not be aligned.
-/

namespace CloakBridge

/-- The byte at every address. -/
@[ext]
structure Memory where
  byte : Nat → UInt8

namespace Memory

/-- The `n` bytes from an address on. -/
def read (m : Memory) : Nat → Nat → ByteString
  | _, 0 => []
  | p, n + 1 => m.byte p :: m.read (p + 1) n

/-- Bytes written from an address on. -/
def write (m : Memory) (p : Nat) (bs : ByteString) : Memory where
  byte a := if p ≤ a then (bs[a - p]?).getD (m.byte a) else m.byte a

def load (m : Memory) (p : Nat) : Word := wordOfBytes (m.read p 32)

def store (m : Memory) (p : Nat) (w : Word) : Memory := m.write p (wordBytes w)

/-- The `n` words from an address on. -/
def words (m : Memory) : Nat → Nat → List Word
  | _, 0 => []
  | p, n + 1 => m.load p :: m.words (p + 32) n

variable {m : Memory} {p n q : Nat} {bs : ByteString}

private theorem read_congr {m' : Memory} (h : ∀ a, p ≤ a → a < p + n → m.byte a = m'.byte a) :
    m.read p n = m'.read p n := by
  induction n generalizing p with
  | zero => rfl
  | succ n ih =>
    rw [read, read, h p le_rfl (by omega), ih fun a ha hlt => h a (by omega) (by omega)]

private theorem byte_write_of_outside {a : Nat} (h : a < p ∨ p + bs.length ≤ a) :
    (m.write p bs).byte a = m.byte a := by
  rw [write]
  dsimp only
  split
  next hle => rw [List.getElem?_eq_none (by omega), Option.getD_none]
  next => rfl

@[simp] theorem write_nil (m : Memory) (p : Nat) : m.write p [] = m := by
  ext a
  rw [byte_write_of_outside (by simp; omega)]

private theorem read_write_of_disjoint (h : q + n ≤ p ∨ p + bs.length ≤ q) :
    (m.write p bs).read q n = m.read q n :=
  read_congr fun a _ _ => byte_write_of_outside (by omega)

/-- Two adjacent stretches are written as one. -/
theorem write_append (m : Memory) (p : Nat) (bs cs : ByteString) :
    m.write p (bs ++ cs) = (m.write p bs).write (p + bs.length) cs := by
  ext a
  simp only [write]
  by_cases hfirst : p + bs.length ≤ a
  · have hle : p ≤ a := by omega
    rw [if_pos hle, if_pos hfirst, List.getElem?_append_right (by omega),
      List.getElem?_eq_none (l := bs) (by omega), Option.getD_none, if_pos hle, Nat.sub_add_eq]
  · rw [if_neg hfirst]
    split
    next => rw [List.getElem?_append_left (by omega)]
    next => rfl

/-- What was written is read back. -/
theorem read_write_self (m : Memory) (p : Nat) (bs : ByteString) :
    (m.write p bs).read p bs.length = bs := by
  induction bs generalizing m p with
  | nil => rfl
  | cons b bs ih =>
    have hfirst : (m.write p (b :: bs)).byte p = b := by simp [write]
    have hrest : m.write p (b :: bs) = (m.write p [b]).write (p + 1) bs := m.write_append p [b] bs
    rw [List.length_cons, read, hfirst, hrest, ih]

/-- A stored word is loaded back. -/
@[simp] theorem load_store_self (m : Memory) (p : Nat) (w : Word) : (m.store p w).load p = w := by
  have hread := m.read_write_self p (wordBytes w)
  rw [length_wordBytes] at hread
  rw [load, store, hread, wordOfBytes_wordBytes]

/-- A word beside the bytes written stays. -/
theorem load_write_of_disjoint (h : q + 32 ≤ p ∨ p + bs.length ≤ q) :
    (m.write p bs).load q = m.load q := by
  rw [load, read_write_of_disjoint h, load]

/-- Words beside the bytes written stay. -/
theorem words_write_of_disjoint (h : q + 32 * n ≤ p ∨ p + bs.length ≤ q) :
    (m.write p bs).words q n = m.words q n := by
  induction n generalizing q with
  | zero => rfl
  | succ n ih => rw [words, words, load_write_of_disjoint (by omega), ih (by omega)]

end Memory

end CloakBridge
