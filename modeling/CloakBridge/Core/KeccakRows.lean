import CloakBridge.Core.Keccak

/-!
# Evaluating digests

The permutation once more, over five rows of five lanes. A lane that is used several
times is computed once: `force` goes on with the value of a lane and not with the
expression for it. The two versions agree, and a digest of a closed byte string is
evaluated in a fraction of the time.
-/

namespace CloakBridge.Keccak

/-- Go on with the value of a lane. -/
def force {α : Type} (x : Lane) (k : Lane → α) : α :=
  Nat.rec (k 0#64) (fun n _ => k (BitVec.ofNat 64 (n + 1))) x.toNat

variable {α : Type}

@[simp] theorem force_eq (x : Lane) (k : Lane → α) : force x k = k x := by
  have hvalue : ∀ n : Nat, Nat.rec (k 0#64) (fun n _ => k (BitVec.ofNat 64 (n + 1))) n =
      k (BitVec.ofNat 64 n) := by
    intro n
    cases n with
    | zero | succ _ => rfl
  rw [force, hvalue, BitVec.ofNat_toNat, BitVec.setWidth_eq]

/-- Five lanes, one of each column. -/
structure Row where
  a : Lane
  b : Lane
  c : Lane
  d : Lane
  e : Lane

namespace Row

def lanes (r : Row) : List Lane := [r.a, r.b, r.c, r.d, r.e]

def force {α : Type} (r : Row) (k : Row → α) : α :=
  Keccak.force r.a fun a => Keccak.force r.b fun b => Keccak.force r.c fun c =>
    Keccak.force r.d fun d => Keccak.force r.e fun e => k ⟨a, b, c, d, e⟩

@[simp] theorem force_eq (r : Row) (k : Row → α) : r.force k = k r := by
  simp [force]

def xor (r s : Row) : Row := ⟨r.a ^^^ s.a, r.b ^^^ s.b, r.c ^^^ s.c, r.d ^^^ s.d, r.e ^^^ s.e⟩

def rotate (r : Row) (i j k l m : Nat) : Row :=
  ⟨rotl r.a i, rotl r.b j, rotl r.c k, rotl r.d l, rotl r.e m⟩

/-- What is added to the lanes of each column, given the parities of all columns. -/
def neighbours (C : Row) : Row :=
  ⟨rotl C.b 1 ^^^ C.e, rotl C.c 1 ^^^ C.a, rotl C.d 1 ^^^ C.b, rotl C.e 1 ^^^ C.c,
    rotl C.a 1 ^^^ C.d⟩

def chi (r : Row) : Row :=
  ⟨r.a ^^^ (~~~r.b &&& r.c), r.b ^^^ (~~~r.c &&& r.d), r.c ^^^ (~~~r.d &&& r.e),
    r.d ^^^ (~~~r.e &&& r.a), r.e ^^^ (~~~r.a &&& r.b)⟩

end Row

/-- The 25 lanes. -/
structure Rows where
  p : Row
  q : Row
  r : Row
  s : Row
  t : Row

namespace Rows

def lanes (A : Rows) : List Lane :=
  A.p.lanes ++ (A.q.lanes ++ (A.r.lanes ++ (A.s.lanes ++ A.t.lanes)))

def force {α : Type} (A : Rows) (k : Rows → α) : α :=
  A.p.force fun p => A.q.force fun q => A.r.force fun r => A.s.force fun s => A.t.force fun t =>
    k ⟨p, q, r, s, t⟩

@[simp] theorem force_eq (A : Rows) (k : Rows → α) : A.force k = k A := by
  simp [force]

def map (f : Row → Row) (A : Rows) : Rows := ⟨f A.p, f A.q, f A.r, f A.s, f A.t⟩

def theta (A : Rows) : Rows :=
  ((((A.p.xor A.q).xor A.r).xor A.s).xor A.t).force fun C =>
    C.neighbours.force fun D => A.map fun r => r.xor D

def rho (A : Rows) : Rows where
  p := ⟨A.p.a, rotl A.p.b 1, rotl A.p.c 62, rotl A.p.d 28, rotl A.p.e 27⟩
  q := A.q.rotate 36 44 6 55 20
  r := A.r.rotate 3 10 43 25 39
  s := A.s.rotate 41 45 15 21 8
  t := A.t.rotate 18 2 61 56 14

def pi (A : Rows) : Rows where
  p := ⟨A.p.a, A.q.b, A.r.c, A.s.d, A.t.e⟩
  q := ⟨A.p.d, A.q.e, A.r.a, A.s.b, A.t.c⟩
  r := ⟨A.p.b, A.q.c, A.r.d, A.s.e, A.t.a⟩
  s := ⟨A.p.e, A.q.a, A.r.b, A.s.c, A.t.d⟩
  t := ⟨A.p.c, A.q.d, A.r.e, A.s.a, A.t.b⟩

def iota (constant : Lane) (A : Rows) : Rows :=
  { A with p := { A.p with a := A.p.a ^^^ constant } }

def rounds : List Lane → Rows → Rows
  | [], A => A
  | constant :: constants, A =>
    A.theta.force fun A => A.rho.pi.force fun A => (A.map Row.chi).force fun A =>
      (A.iota constant).force fun A => rounds constants A

private theorem lanes_theta (A : Rows) : A.theta.lanes = Keccak.theta A.lanes := by
  simp [theta, map, lanes, Row.lanes, Row.xor, Row.neighbours, Keccak.theta, columns, lane,
    List.range_succ]

private theorem lanes_rho (A : Rows) : A.rho.lanes = Keccak.rho A.lanes := by
  simp [rho, lanes, Row.lanes, Row.rotate, Keccak.rho, rhoOffsets]

private theorem lanes_pi (A : Rows) : A.pi.lanes = Keccak.pi A.lanes := by
  simp [pi, lanes, Row.lanes, Keccak.pi, piCycle, lane, List.range_succ]

private theorem lanes_chi (A : Rows) : (A.map Row.chi).lanes = Keccak.chi A.lanes := by
  simp [map, lanes, Row.lanes, Row.chi, Keccak.chi, lane]

private theorem lanes_iota (round : Nat) (A : Rows) :
    (A.iota (roundConstant round)).lanes = Keccak.iota round A.lanes := by
  simp [iota, lanes, Row.lanes, Keccak.iota]

private theorem lanes_rounds (rs : List Nat) (A : Rows) : (rounds (rs.map roundConstant) A).lanes =
      rs.foldl (fun A round => Keccak.iota round (Keccak.chi (Keccak.pi (Keccak.rho
        (Keccak.theta A))))) A.lanes := by
  induction rs generalizing A with
  | nil => rfl
  | cons round rs ih =>
    simp only [List.map_cons, rounds, force_eq, List.foldl_cons]
    rw [ih, lanes_iota, lanes_chi, lanes_pi, lanes_rho, lanes_theta]

/-- The constants of the 24 rounds. -/
def constants : List Lane :=
  [1, 32898, 9223372036854808714, 9223372039002292224, 32907, 2147483649, 9223372039002292353,
    9223372036854808585, 138, 136, 2147516425, 2147483658, 2147516555, 9223372036854775947,
    9223372036854808713, 9223372036854808579, 9223372036854808578, 9223372036854775936, 32778,
    9223372039002259466, 9223372039002292353, 9223372036854808704, 2147483649, 9223372039002292232]

private theorem map_roundConstant : (List.range 24).map roundConstant = constants := by
  decide +kernel

private theorem lanes_permutation (A : Rows) :
    (rounds constants A).lanes = permutation A.lanes := by
  rw [← map_roundConstant, lanes_rounds, permutation]

/-- The rows of a block; the lanes behind it are zero. -/
def ofBlock (block : ByteString) : Rows :=
  let word i := laneOfBytes ((block.drop (8 * i)).take 8)
  { p := ⟨word 0, word 1, word 2, word 3, word 4⟩
    q := ⟨word 5, word 6, word 7, word 8, word 9⟩
    r := ⟨word 10, word 11, word 12, word 13, word 14⟩
    s := ⟨word 15, word 16, 0, 0, 0⟩
    t := ⟨0, 0, 0, 0, 0⟩ }

def xor (A B : Rows) : Rows := ⟨A.p.xor B.p, A.q.xor B.q, A.r.xor B.r, A.s.xor B.s, A.t.xor B.t⟩

def processBlock (A : Rows) (block : ByteString) : Rows :=
  (A.xor (ofBlock block)).force (rounds constants)

private theorem lanes_processBlock (A : Rows) (block : ByteString) :
    (A.processBlock block).lanes = Keccak.processBlock A.lanes block := by
  have hxor : (A.xor (ofBlock block)).lanes = A.lanes.mapIdx fun i a =>
      if i < 17 then a ^^^ laneOfBytes ((block.drop (8 * i)).take 8) else a := by
    simp [xor, ofBlock, lanes, Row.lanes, Row.xor]
  rw [processBlock, force_eq, lanes_permutation, hxor, Keccak.processBlock]

def absorb : (blocks : Nat) → Rows → ByteString → Rows
  | 0, A, msg => A.processBlock (pad msg)
  | blocks + 1, A, msg =>
    if msg.length < blockSize then A.processBlock (pad msg)
    else absorb blocks (A.processBlock (msg.take blockSize)) (msg.drop blockSize)

private theorem lanes_absorb (blocks : Nat) (A : Rows) (msg : ByteString) :
    (A.absorb blocks msg).lanes = Keccak.absorb blocks A.lanes msg := by
  induction blocks generalizing A msg with
  | zero => exact lanes_processBlock A _
  | succ blocks ih =>
    rw [absorb, Keccak.absorb]
    split
    · exact lanes_processBlock A _
    · rw [ih, lanes_processBlock]

end Rows

/-- The digest, over rows. -/
def digest (msg : ByteString) : ByteString :=
  (Rows.absorb (msg.length / blockSize) (.ofBlock []) msg).p.force fun row =>
    [row.a, row.b, row.c, row.d].flatMap laneBytes

/-- The digest by rows is Keccak-256. -/
theorem keccak256_eq_digest (msg : ByteString) : keccak256 msg = digest msg := by
  have hzero : List.replicate 25 (0 : Lane) = (Rows.ofBlock []).lanes := by
    decide
  have htake (A : Rows) : A.lanes.take 4 = [A.p.a, A.p.b, A.p.c, A.p.d] := rfl
  rw [keccak256, hzero, ← Rows.lanes_absorb, htake, digest, Row.force_eq]

end CloakBridge.Keccak
