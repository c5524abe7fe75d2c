import CloakBridge.Models.Abi.Decoder

/-!
# Where the decoder leaves its input

The decoder follows offsets and lengths that it reads from the input. Some of its accesses
are checked and throw, others are not. Which is met first is a property of the types and
the bytes: `Formed` describes the inputs a coder is filled from, and `Overruns` those in
which an unchecked access goes wrong behind formed ones.
-/

namespace CloakBridge.Abicoder

open Abi List

/-- The number in the 32 bytes from `i` on. -/
def wordAt (bs : ByteString) (i : Nat) : Nat := fromBigEndian ((bs.drop i).take 32)

/-- A coder of the type is built without a value. -/
def Buildable : TypeJson → Prop
  | .base (.number bitSize _) => isValidBitSize bitSize
  | .base .bool => False
  | .base (.bytes len) => len ≤ 32
  | _ => True

/-- A byte string with its length in front. -/
def FormedBytes (bs : ByteString) : Prop := 32 ≤ bs.length ∧ 32 + wordAt bs 0 ≤ bs.length ∧
  32 + wordAt bs 0 < 2 ^ 64

/-- An element of an array whose word is at `offset`; `formed` is about its coder. -/
def FormedElement (next : TypeJson) (formed : ByteString → Prop) (bs : ByteString)
    (offset : Nat) : Prop :=
  offset + 32 ≤ bs.length ∧
    if dynamicType next then
      wordAt bs offset < 2 ^ 64 ∧ wordAt bs offset + 32 ≤ bs.length ∧
        formed (bs.drop (wordAt bs offset + 32))
    else formed ((bs.drop offset).take 32)

/-- The number of elements, and where the first is, in the data of an array. -/
def elementsAt (len : Option Nat) (bs : ByteString) : Nat × Nat :=
  if len.getD 0 = 0 then (wordAt bs 0, 32) else (len.getD 0, 0)

/-- The data of an array is long enough for the loop over its elements to begin. -/
def ArrayHead (len : Option Nat) (bs : ByteString) : Prop :=
  if len.getD 0 = 0 then
    2 ≤ bs.length / 32 ∧ wordAt bs 0 < 2 ^ 64 ∧ wordAt bs 0 ≤ bs.length / 32 - 1
  else 1 ≤ bs.length / 32

/-- The coder of the type is built and filled from the bytes. -/
def Formed : TypeJson → ByteString → Prop
  | .base (.number bitSize _), bs => isValidBitSize bitSize ∧ 32 ≤ bs.length
  | .base .address, bs => 32 ≤ bs.length
  | .base .bool, _ => False
  | .base .string, bs => FormedBytes bs
  | .base (.bytes len), bs =>
    if len = 0 then FormedBytes bs else len ≤ 32 ∧ (bs.length = len ∨ 32 ≤ bs.length)
  | .array next len, bs =>
    ArrayHead len bs ∧ ∀ i < (elementsAt len bs).1,
      FormedElement next (Formed next) bs ((elementsAt len bs).2 + 32 * i)

/-- The length of a byte string is so large that its end comes before its start. -/
def OverrunsBytes (bs : ByteString) : Prop :=
  32 ≤ bs.length ∧ wordAt bs 0 < 2 ^ 64 ∧ 2 ^ 64 ≤ 32 + wordAt bs 0

/-- An unchecked access goes wrong at the element whose word is at `offset`; `overruns` is about
its coder. -/
def OverrunsElement (next : TypeJson) (overruns : ByteString → Prop) (bs : ByteString)
    (offset : Nat) : Prop :=
  next = .base .bool ∨ offset + 32 ≤ bs.length ∧
    if dynamicType next then
      wordAt bs offset < 2 ^ 64 ∧
        (bs.length < wordAt bs offset + 32 ∨ overruns (bs.drop (wordAt bs offset + 32)))
    else overruns ((bs.drop offset).take 32)

/-- An unchecked access goes wrong when the coder of the type is built and filled from the
bytes. -/
def Overruns : TypeJson → ByteString → Prop
  | .base .bool, _ => True
  | .base .string, bs => OverrunsBytes bs
  | .base (.bytes len), bs => if len = 0 then OverrunsBytes bs else len ≤ 32 ∧ bs.length < len
  | .base _, _ => False
  | .array next len, bs =>
    ArrayHead len bs ∧ ∃ i < (elementsAt len bs).1,
      (∀ j < i, FormedElement next (Formed next) bs ((elementsAt len bs).2 + 32 * j)) ∧
        OverrunsElement next (Overruns next) bs ((elementsAt len bs).2 + 32 * i)

/-- A computation returns exactly when `formed` holds, and makes an unchecked access outside a
vector exactly when `overruns` does. -/
structure Outcome {α : Type} (x : Except Failure α) (formed overruns : Prop) : Prop where
  returns : Returns x ↔ formed
  undefined : x = .error .undefined ↔ overruns

variable {n : Nat}

namespace Outcome

variable {α β : Type} {x : Except Failure α} {formed overruns formed' overruns' : Prop}
  {bs : ByteString}

private theorem ok (a : α) (hformed : formed) (hoverruns : ¬overruns) :
    Outcome (.ok a : Except Failure α) formed overruns :=
  ⟨iff_of_true (returns_ok a) hformed, iff_of_false nofun hoverruns⟩

private theorem throws {failure : Failure} (h : failure ≠ .undefined) (hformed : ¬formed)
    (hoverruns : ¬overruns) : Outcome (.error failure : Except Failure α) formed overruns :=
  ⟨iff_of_false (not_returns_error failure) hformed,
    iff_of_false (fun heq => h (Except.error.inj heq)) hoverruns⟩

private theorem overrun (hformed : ¬formed) (hoverruns : overruns) :
    Outcome (.error .undefined : Except Failure α) formed overruns :=
  ⟨iff_of_false (not_returns_error _) hformed, iff_of_true rfl hoverruns⟩

private theorem congr (h : Outcome x formed overruns) (hformed : formed ↔ formed')
    (hoverruns : overruns ↔ overruns') : Outcome x formed' overruns' :=
  ⟨h.returns.trans hformed, h.undefined.trans hoverruns⟩

private theorem ite {p : Prop} [Decidable p] {y : Except Failure α}
    (hx : p → Outcome x formed overruns)
    (hy : ¬p → Outcome y formed overruns) : Outcome (if p then x else y) formed overruns := by
  by_cases h : p
  · rw [if_pos h]
    exact hx h
  · rw [if_neg h]
    exact hy h

private theorem map (h : Outcome x formed overruns) (f : α → β) :
    Outcome (x >>= fun a => .ok (f a)) formed overruns := by
  refine ⟨?_, ?_⟩
  · rw [returns_bind, ← h.returns]
    exact ⟨fun ⟨a, ha, _⟩ => ⟨a, ha⟩, fun ⟨a, ha⟩ => ⟨a, ha, returns_ok _⟩⟩
  · rw [except_bind_eq_error, ← h.undefined]
    exact or_iff_left (fun ⟨_, _, h⟩ => nomatch h)

private theorem mapM_range {f : Nat → Except Failure α} {formed overruns : Nat → Prop}
    (h : ∀ i, Outcome (f i) (formed i) (overruns i)) :
    Outcome ((List.range n).mapM f) (∀ i < n, formed i)
      (∃ i < n, (∀ j < i, formed j) ∧ overruns i) := by
  refine ⟨?_, ?_⟩
  · simp only [returns_mapM_range, (h _).returns]
  · simp only [mapM_range_eq_error, (h _).returns, (h _).undefined]

private theorem subVector (bs : ByteString) (first last : Nat) :
    Outcome (subVector bs first last) (first ≤ last ∧ last ≤ bs.length)
      (last ≤ bs.length ∧ last < first) := by
  unfold Abicoder.subVector
  refine ite (fun h => ?_) fun h => ite (fun h' => ?_) fun h' => ?_
  · exact throws nofun (by omega) (by omega)
  · exact overrun (by omega) (by omega)
  · exact ok _ (by omega) (by omega)

end Outcome

variable {bs : ByteString} {i offset : Nat} {type next : TypeJson} {coder : Decoded}

private theorem subVector_word {word : ByteString} (h : subVector bs i (i + 32) = .ok word) :
    word = (bs.drop i).take 32 := by
  unfold subVector at h
  split at h
  next => cases h
  next =>
    rw [if_neg (by omega), drop_take, Nat.add_sub_cancel_left] at h
    exact (Except.ok.inj h).symm

namespace Outcome

variable {α β : Type} {formed overruns : Prop} {bs : ByteString} {f : ByteString → Except Failure α}

private theorem subVector_bind (h : Outcome (f ((bs.drop i).take 32)) formed overruns) :
    Outcome (Abicoder.subVector bs i (i + 32) >>= f) (i + 32 ≤ bs.length ∧ formed)
      (i + 32 ≤ bs.length ∧ overruns) := by
  have hword := Outcome.subVector bs i (i + 32)
  cases hsub : Abicoder.subVector bs i (i + 32) with
  | error failure =>
    have hlength : ¬ i + 32 ≤ bs.length := by
      intro hle
      obtain ⟨word, heq⟩ := hword.returns.mpr ⟨Nat.le_add_right i 32, hle⟩
      rw [hsub] at heq
      cases heq
    have hfailure : failure ≠ .undefined := by
      rintro rfl
      have := hword.undefined.mp hsub
      omega
    exact throws hfailure (fun h => hlength h.1) fun h => hlength h.1
  | ok word =>
    obtain rfl := subVector_word hsub
    have hlength : i + 32 ≤ bs.length := (hword.returns.mp ⟨_, hsub⟩).2
    exact h.congr (and_iff_right hlength).symm (and_iff_right hlength).symm

private theorem decodeToUint64_bind {f : Nat → Except Failure α}
    (h : Outcome (f (wordAt bs i)) formed overruns) : Outcome (decodeToUint64 bs i >>= f)
      (i + 32 ≤ bs.length ∧ wordAt bs i < 2 ^ 64 ∧ formed)
      (i + 32 ≤ bs.length ∧ wordAt bs i < 2 ^ 64 ∧ overruns) := by
  rw [decodeToUint64, bind_assoc]
  refine subVector_bind ?_
  change Outcome ((if 2 ^ 64 ≤ wordAt bs i then _ else _) >>= f) _ _
  by_cases hlt : wordAt bs i < 2 ^ 64
  · rw [if_neg (Nat.not_le.mpr hlt)]
    exact h.congr (and_iff_right hlt).symm (and_iff_right hlt).symm
  · rw [if_pos (Nat.le_of_not_lt hlt)]
    exact throws nofun (fun h => hlt h.1) fun h => hlt h.1

private theorem fromIndex_bind (h : Outcome (f (bs.drop i)) formed overruns) :
    Outcome (fromIndex bs i >>= f) (i ≤ bs.length ∧ formed)
      (bs.length < i ∨ i ≤ bs.length ∧ overruns) := by
  unfold fromIndex
  by_cases hle : i ≤ bs.length
  · rw [if_pos hle]
    refine h.congr (and_iff_right hle).symm ?_
    rw [and_iff_right hle, or_iff_right (Nat.not_lt.mpr hle)]
  · rw [if_neg hle]
    exact overrun (fun h => hle h.1) (Or.inl (Nat.lt_of_not_le hle))

private theorem decodeBytes (bs : ByteString) :
    Outcome (decodeBytes bs) (FormedBytes bs) (OverrunsBytes bs) := by
  unfold Abicoder.decodeBytes FormedBytes OverrunsBytes
  refine ite (fun h => ?_) fun h => ?_
  · exact throws nofun (by omega) (by omega)
  · have hrange := Outcome.subVector bs 32 ((32 + wordAt bs 0) % 2 ^ 64)
    refine Outcome.congr (decodeToUint64_bind hrange) ?_ ?_
    · omega
    · omega

end Outcome

private theorem generateScalar_bytes_eq {len : Nat} (h : len ≠ 0) : generateScalar (.bytes len) [] =
      if len ≤ 32 then .ok (.bytes len (List.replicate len 0))
      else .error (.bytesSize len len) := by
  have hpos : 0 < len := Nat.pos_of_ne_zero h
  simp only [generateScalar, h, if_false, if_true, makeBytes, length_replicate, hpos,
    true_and, and_true]

private theorem generateScalar_number_eq (bitSize : Nat) (signed : Bool) :
    generateScalar (.number bitSize signed) [] =
      if isValidBitSize bitSize then .ok (.numeric 0) else .error .bitSize :=
  rfl

private theorem entryIdentity_outcome (type : TypeJson) :
    Outcome (entryIdentity type) (Buildable type) (type = .base .bool) := by
  cases type with
  | array next len => exact .ok () trivial nofun
  | base type =>
    cases type with
    | number bitSize signed =>
      rw [entryIdentity, generateScalar_number_eq]
      by_cases hvalid : isValidBitSize bitSize
      · rw [if_pos hvalid]
        exact .ok () hvalid nofun
      · rw [if_neg hvalid]
        exact .throws nofun hvalid nofun
    | address => exact .ok () trivial nofun
    | bool => exact .overrun id rfl
    | string => exact .ok () trivial nofun
    | bytes len =>
      by_cases hzero : len = 0
      · subst hzero
        exact .ok () (Nat.zero_le 32) nofun
      · rw [entryIdentity, generateScalar_bytes_eq hzero]
        by_cases hle : len ≤ 32
        · rw [if_pos hle]
          exact .ok () hle nofun
        · rw [if_neg hle]
          exact .throws nofun hle nofun

private theorem word_outcome (coder : Scalar) :
    Outcome (if bs.length < 32 then (.error .noSpace : Except Failure Scalar) else .ok coder)
      (32 ≤ bs.length) False :=
  .ite (fun h => .throws nofun (Nat.not_le.mpr h) id) fun h => .ok _ (Nat.le_of_not_lt h) id

private theorem decodeAs_base_outcome (type : BaseType) (bs : ByteString) :
    Outcome (decodeAs (.base type) bs) (Formed (.base type) bs) (Overruns (.base type) bs) := by
  cases type with
  | number bitSize signed =>
    rw [decodeAs, generateScalar_number_eq]
    by_cases hvalid : isValidBitSize bitSize
    · rw [if_pos hvalid]
      exact ((word_outcome _).map _).congr (and_iff_right hvalid).symm Iff.rfl
    · rw [if_neg hvalid]
      exact .throws nofun (fun h => hvalid h.1) id
  | address => exact (word_outcome _).map _
  | bool => exact .overrun id trivial
  | string => exact ((Outcome.decodeBytes bs).map _).map _
  | bytes len =>
    rw [Formed, Overruns]
    by_cases hzero : len = 0
    · subst hzero
      rw [if_pos rfl, if_pos rfl]
      exact ((Outcome.decodeBytes bs).map _).map _
    · rw [if_neg hzero, if_neg hzero, decodeAs, generateScalar_bytes_eq hzero]
      by_cases hle : len ≤ 32
      · rw [if_pos hle]
        refine Outcome.map ?_ _
        refine .ite (fun h => ?_) fun h => .ite (fun h' => ?_) fun h' => ?_
        · exact .throws nofun (by omega) (by omega)
        · exact .overrun (by omega) ⟨hle, h'⟩
        · exact .ok _ (by omega) (by omega)
      · rw [if_neg hle]
        exact .throws nofun (fun h => hle h.1) fun h => hle h.1

/-- A type whose coder cannot be built is never formed, and only overruns as a boolean. -/
theorem buildable_of_formed (h : Formed type bs) : Buildable type := by
  cases type with
  | array next len => trivial
  | base type =>
    cases type with
    | number bitSize signed => exact h.1
    | address => trivial
    | bool => exact h
    | string => trivial
    | bytes len =>
      rw [Formed] at h
      split at h
      next hzero => exact hzero ▸ Nat.zero_le 32
      next => exact h.1

private theorem buildable_of_overruns (hbool : type ≠ .base .bool) (h : Overruns type bs) :
    Buildable type := by
  cases type with
  | array next len => trivial
  | base type =>
    cases type with
    | number bitSize signed => exact h.elim
    | address => trivial
    | bool => exact (hbool rfl).elim
    | string => trivial
    | bytes len =>
      rw [Overruns] at h
      split at h
      next hzero => exact hzero ▸ Nat.zero_le 32
      next => exact h.1

private theorem buildable_of_dynamicType (h : dynamicType type = true) : Buildable type := by
  cases type with
  | array next len => trivial
  | base type =>
    cases type with
    | bytes len => exact (of_decide_eq_true h) ▸ Nat.zero_le 32
    | string => trivial
    | _ => exact nomatch h

private theorem basicDecode_outcome {decodeNext : ByteString → Except Failure Decoded}
    (h : ∀ bs, Outcome (decodeNext bs) (Formed next bs) (Overruns next bs)) (bs : ByteString)
    (offset : Nat) :
    Outcome (basicDecode next decodeNext bs offset) (FormedElement next (Formed next) bs offset)
      (OverrunsElement next (Overruns next) bs offset) := by
  have hentry := entryIdentity_outcome next
  have hformed : FormedElement next (Formed next) bs offset → Buildable next := by
    rintro ⟨-, helement⟩
    split at helement
    next => exact buildable_of_formed helement.2.2
    next => exact buildable_of_formed helement
  rw [basicDecode]
  cases hcoder : entryIdentity next with
  | error failure =>
    have hnot : ¬Buildable next := fun hbuild => by
      obtain ⟨_, hok⟩ := hentry.returns.mpr hbuild
      rw [hcoder] at hok
      cases hok
    by_cases hbool : next = .base .bool
    · rw [hentry.undefined.mpr hbool] at hcoder
      cases hcoder
      exact .overrun (mt hformed hnot) (Or.inl hbool)
    · have hfailure : failure ≠ .undefined := fun hundefined =>
        hbool (hentry.undefined.mp (hcoder.trans (congrArg _ hundefined)))
      refine .throws hfailure (mt hformed hnot) ?_
      rintro (hnext | ⟨-, helement⟩)
      · exact hbool hnext
      · split at helement
        next hdynamic => exact hnot (buildable_of_dynamicType hdynamic)
        next => exact hnot (buildable_of_overruns hbool helement)
  | ok _ =>
    have hbool : next ≠ .base .bool := fun hnext => by
      rw [hentry.undefined.mpr hnext] at hcoder
      cases hcoder
    change Outcome (if dynamicType next = true then _ else _) _ _
    rw [FormedElement, OverrunsElement, or_iff_right hbool]
    by_cases hdynamic : dynamicType next = true
    · rw [if_pos hdynamic, if_pos hdynamic, if_pos hdynamic]
      refine (Outcome.decodeToUint64_bind (Outcome.fromIndex_bind (h _))).congr Iff.rfl ?_
      have hjump : ∀ p : Prop, (bs.length < wordAt bs offset + 32 ∨
          wordAt bs offset + 32 ≤ bs.length ∧ p) ↔ bs.length < wordAt bs offset + 32 ∨ p := by
        intro p
        by_cases hle : wordAt bs offset + 32 ≤ bs.length
        · rw [and_iff_right hle]
        · exact iff_of_true (Or.inl (Nat.lt_of_not_le hle)) (Or.inl (Nat.lt_of_not_le hle))
      rw [hjump]
    · rw [if_neg hdynamic, if_neg hdynamic, if_neg hdynamic]
      exact Outcome.subVector_bind (h _)

/-- The coder of an array reads its elements one after another. -/
theorem decodeAs_array_outcome (len : Option Nat)
    (h : ∀ bs, Outcome (decodeAs next bs) (Formed next bs) (Overruns next bs)) (bs : ByteString) :
    Outcome (decodeAs (.array next len) bs) (Formed (.array next len) bs)
      (Overruns (.array next len) bs) := by
  have hloop : ∀ first n,
      Outcome ((List.range n).mapM fun i => basicDecode next (decodeAs next) bs (first + 32 * i))
        (∀ i < n, FormedElement next (Formed next) bs (first + 32 * i))
        (∃ i < n, (∀ j < i, FormedElement next (Formed next) bs (first + 32 * j)) ∧
          OverrunsElement next (Overruns next) bs (first + 32 * i)) :=
    fun first n => Outcome.mapM_range fun i => basicDecode_outcome h bs (first + 32 * i)
  rw [Formed, Overruns, decodeAs, ArrayHead, elementsAt]
  by_cases hzero : len.getD 0 = 0
  · simp only [if_pos hzero]
    refine .ite (fun hshort => ?_) fun hlong => ?_
    · exact .throws nofun (fun hf => by omega) fun hf => by omega
    · have hcount : Outcome (if bs.length / 32 - 1 < wordAt bs 0 then
          (.error (.lengthMismatch (bs.length / 32 - 1) (wordAt bs 0)) : Except Failure Decoded)
        else do
          let parameters ← (List.range (wordAt bs 0)).mapM fun i =>
            basicDecode next (decodeAs next) bs (32 + 32 * i)
          .ok (.array parameters))
          (wordAt bs 0 ≤ bs.length / 32 - 1 ∧
            ∀ i < wordAt bs 0, FormedElement next (Formed next) bs (32 + 32 * i))
          (wordAt bs 0 ≤ bs.length / 32 - 1 ∧ ∃ i < wordAt bs 0,
            (∀ j < i, FormedElement next (Formed next) bs (32 + 32 * j)) ∧
              OverrunsElement next (Overruns next) bs (32 + 32 * i)) := by
        refine .ite (fun hmany => ?_) fun hfew => ?_
        · exact .throws nofun (fun hf => Nat.not_le.mpr hmany hf.1)
            fun hf => Nat.not_le.mpr hmany hf.1
        · have hle := Nat.le_of_not_lt hfew
          exact ((hloop 32 _).map _).congr (and_iff_right hle).symm (and_iff_right hle).symm
      have hwords : 2 ≤ bs.length / 32 := Nat.le_of_not_lt hlong
      have hword : 0 + 32 ≤ bs.length := by omega
      refine (Outcome.decodeToUint64_bind hcount).congr ?_ ?_
      · rw [and_iff_right hword, and_iff_right hwords, and_assoc]
      · rw [and_iff_right hword, and_iff_right hwords, and_assoc]
  · simp only [if_neg hzero]
    refine .ite (fun hshort => ?_) fun hlong => ?_
    · exact .throws nofun (fun hf => by omega) fun hf => by omega
    · have hwords : 1 ≤ bs.length / 32 := Nat.le_of_not_lt hlong
      have hall := (hloop 0 (len.getD 0)).map Decoded.array
      simp only [Nat.zero_add] at hall ⊢
      exact hall.congr (and_iff_right hwords).symm (and_iff_right hwords).symm

/-- Building and filling the coder of any type. -/
theorem decodeAs_outcome (type : TypeJson) (bs : ByteString) :
    Outcome (decodeAs type bs) (Formed type bs) (Overruns type bs) := by
  induction type generalizing bs with
  | base type => exact decodeAs_base_outcome type bs
  | array next len ih => exact decodeAs_array_outcome len ih bs

/-- Where the data of the parameter whose head is at `offset` starts. -/
def startAt (bs : ByteString) (type : TypeJson) (offset : Nat) : Nat :=
  if dynamicType type then wordAt bs offset else offset

/-- The way from one head to the next. -/
def strideAt (bs : ByteString) (type : TypeJson) (offset : Nat) : Nat :=
  match type with
  | .base .string => alignSize (wordAt bs (startAt bs type offset))
  | .base (.bytes len) => if len = 0 then alignSize (wordAt bs (startAt bs type offset)) else 32
  | .base _ => 32
  | .array _ len => if len.getD 0 = 0 then 32 else len.getD 0 * 32

/-- The parameter whose head is at `offset` is filled from the input. -/
def FormedAt (bs : ByteString) (type : TypeJson) (offset : Nat) : Prop :=
  (dynamicType type = true → offset + 32 ≤ bs.length ∧ wordAt bs offset < 2 ^ 64) ∧
    startAt bs type offset ≤ bs.length ∧ Formed type (bs.drop (startAt bs type offset))

/-- An unchecked access goes wrong at the parameter whose head is at `offset`. -/
def OverrunsAt (bs : ByteString) (type : TypeJson) (offset : Nat) : Prop :=
  (dynamicType type = true → offset + 32 ≤ bs.length ∧ wordAt bs offset < 2 ^ 64) ∧
    (bs.length < startAt bs type offset ∨ Overruns type (bs.drop (startAt bs type offset)))

/-- An unchecked access goes wrong at one of the parameters, all before it being formed. -/
def OverrunsFrom (bs : ByteString) : List TypeJson → Nat → Prop
  | [], _ => False
  | type :: types, offset => OverrunsAt bs type offset ∨
      FormedAt bs type offset ∧ OverrunsFrom bs types (offset + strideAt bs type offset)

/-- The first type whose coder cannot be built is a boolean, or all are built and an unchecked
access goes wrong when they are filled. -/
def LeavesInput (types : List TypeJson) (bs : ByteString) : Prop :=
  (∃ front back, types = front ++ .base .bool :: back ∧ ∀ type ∈ front, Buildable type) ∨
    (∀ type ∈ types, Buildable type) ∧ OverrunsFrom bs types 0

private theorem decodeAt_outcome (bs : ByteString) (type : TypeJson) (offset : Nat) :
    Outcome (decodeAt bs type offset) (FormedAt bs type offset) (OverrunsAt bs type offset) := by
  have hjump : ∀ start, Outcome (fromIndex bs start >>= decodeAs type) (start ≤ bs.length ∧ Formed
      type (bs.drop start)) (bs.length < start ∨ Overruns type (bs.drop start)) := by
    intro start
    refine (Outcome.fromIndex_bind (decodeAs_outcome type _)).congr Iff.rfl ?_
    by_cases hle : start ≤ bs.length
    · rw [and_iff_right hle]
    · exact iff_of_true (Or.inl (Nat.lt_of_not_le hle)) (Or.inl (Nat.lt_of_not_le hle))
  unfold decodeAt FormedAt OverrunsAt startAt
  by_cases hdynamic : dynamicType type = true
  · simp only [hdynamic, if_true, forall_true_left]
    refine (Outcome.decodeToUint64_bind (hjump _)).congr ?_ ?_
    · rw [and_assoc]
    · rw [and_assoc]
  · simp only [hdynamic]
    refine (hjump offset).congr ?_ ?_
    · simp
    · simp

private theorem length_decodeBytes {value : ByteString} (h : decodeBytes bs = .ok value) :
    value.length = wordAt bs 0 := by
  have hformed : FormedBytes bs := (Outcome.decodeBytes bs).returns.mp ⟨value, h⟩
  obtain ⟨hshort, hlength, hlt⟩ := hformed
  have hword : decodeToUint64 bs 0 = .ok (wordAt bs 0) := by
    have hsub : subVector bs 0 (0 + 32) = .ok ((bs.drop 0).take 32) := by
      rw [subVector, if_neg (by omega), if_neg (by omega), drop_take]
    rw [decodeToUint64, hsub]
    exact if_neg (Nat.not_le.mpr (by change wordAt bs 0 < _; omega))
  rw [decodeBytes, if_neg (Nat.not_lt.mpr hshort), hword] at h
  change subVector bs 32 ((32 + wordAt bs 0) % 2 ^ 64) = .ok value at h
  rw [Nat.mod_eq_of_lt hlt, subVector, if_neg (Nat.not_lt.mpr hlength), if_neg (by omega)] at h
  rw [← Except.ok.inj h, length_drop, length_take]
  omega

/-- A filled coder reports the stride that the input says. -/
theorem headStride_of_decodeAs (h : decodeAs type (bs.drop (startAt bs type offset)) = .ok coder) :
    headStride type coder = strideAt bs type offset := by
  have hword : wordAt (bs.drop (startAt bs type offset)) 0 =
      wordAt bs (startAt bs type offset) := by
    simp only [wordAt, drop_zero]
  cases type with
  | array next len => rfl
  | base type =>
    rw [decodeAs] at h
    obtain ⟨blank, hblank, h⟩ := except_bind_eq_ok.mp h
    obtain ⟨filled, hfilled, h⟩ := except_bind_eq_ok.mp h
    obtain rfl := Except.ok.inj h
    cases type with
    | number bitSize signed =>
      rw [generateScalar_number_eq] at hblank
      split at hblank
      next =>
        obtain rfl := Except.ok.inj hblank
        rw [Scalar.decode] at hfilled
        split at hfilled
        next => cases hfilled
        next => exact Except.ok.inj hfilled ▸ rfl
      next => cases hblank
    | address =>
      obtain rfl := Except.ok.inj hblank
      rw [Scalar.decode] at hfilled
      split at hfilled
      next => cases hfilled
      next => exact Except.ok.inj hfilled ▸ rfl
    | bool => cases hblank
    | string =>
      obtain rfl := Except.ok.inj hblank
      obtain ⟨value, hvalue, hfilled⟩ := except_bind_eq_ok.mp hfilled
      obtain rfl := Except.ok.inj hfilled
      rw [headStride, length_decodeBytes hvalue, hword, strideAt]
    | bytes len =>
      rw [strideAt]
      by_cases hzero : len = 0
      · subst hzero
        obtain rfl := Except.ok.inj hblank
        obtain ⟨value, hvalue, hfilled⟩ := except_bind_eq_ok.mp hfilled
        obtain rfl := Except.ok.inj hfilled
        rw [headStride, length_decodeBytes hvalue, hword, if_pos rfl]
      · rw [generateScalar_bytes_eq hzero] at hblank
        rw [if_neg hzero]
        split at hblank
        next =>
          obtain rfl := Except.ok.inj hblank
          rw [Scalar.decode] at hfilled
          split at hfilled
          next => cases hfilled
          next =>
            split at hfilled
            next => cases hfilled
            next => exact Except.ok.inj hfilled ▸ rfl
        next => cases hblank

/-- A number that is read is that of its word. -/
theorem eq_of_decodeToUint64 (h : decodeToUint64 bs i = .ok n) : n = wordAt bs i := by
  obtain ⟨word, hword, h⟩ := except_bind_eq_ok.mp h
  obtain rfl := subVector_word hword
  split at h
  next => cases h
  next => exact (Except.ok.inj h).symm

/-- A jump leads to the rest of the input. -/
theorem eq_of_fromIndex {rest : ByteString} (h : fromIndex bs i = .ok rest) : rest = bs.drop i := by
  unfold fromIndex at h
  split at h
  next => exact (Except.ok.inj h).symm
  next => cases h

private theorem decodeAs_of_decodeAt (h : decodeAt bs type offset = .ok coder) :
    decodeAs type (bs.drop (startAt bs type offset)) = .ok coder := by
  unfold decodeAt at h
  unfold startAt
  by_cases hdynamic : dynamicType type = true
  · simp only [hdynamic, if_true] at h ⊢
    obtain ⟨start, hstart, h⟩ := except_bind_eq_ok.mp h
    obtain ⟨rest, hrest, h⟩ := except_bind_eq_ok.mp h
    rwa [eq_of_fromIndex hrest, eq_of_decodeToUint64 hstart] at h
  · simp only [hdynamic, Bool.false_eq_true, if_false] at h ⊢
    obtain ⟨start, hstart, h⟩ := except_bind_eq_ok.mp h
    obtain ⟨rest, hrest, h⟩ := except_bind_eq_ok.mp h
    rwa [eq_of_fromIndex hrest, ← Except.ok.inj hstart] at h

private theorem headStride_of_decodeAt (h : decodeAt bs type offset = .ok coder) :
    headStride type coder = strideAt bs type offset :=
  headStride_of_decodeAs (decodeAs_of_decodeAt h)

private theorem decodeLoop_eq_undefined (bs : ByteString) (types : List TypeJson) (offset : Nat) :
    decodeLoop bs types offset = .error .undefined ↔ OverrunsFrom bs types offset := by
  induction types generalizing offset with
  | nil => exact iff_of_false nofun id
  | cons type types ih =>
    have hat := decodeAt_outcome bs type offset
    rw [decodeLoop, except_bind_eq_error, hat.undefined, OverrunsFrom]
    refine or_congr_right ?_
    constructor
    · rintro ⟨coder, hcoder, h⟩
      rw [headStride_of_decodeAt hcoder] at h
      refine ⟨hat.returns.mp ⟨coder, hcoder⟩, (ih _).mp ?_⟩
      rcases except_bind_eq_error.mp h with h | ⟨_, -, h⟩
      · exact h
      · cases h
    · rintro ⟨hformed, h⟩
      obtain ⟨coder, hcoder⟩ := hat.returns.mpr hformed
      refine ⟨coder, hcoder, except_bind_eq_error.mpr (Or.inl ?_)⟩
      rw [headStride_of_decodeAt hcoder]
      exact (ih _).mpr h

private theorem returns_forM_entryIdentity (types : List TypeJson) :
    Returns (types.forM entryIdentity) ↔ ∀ type ∈ types, Buildable type := by
  induction types with
  | nil => exact iff_of_true (returns_ok ()) nofun
  | cons type types ih =>
    rw [List.forM, returns_bind, forall_mem_cons, ← ih, ← (entryIdentity_outcome type).returns]
    exact ⟨fun ⟨a, ha, h⟩ => ⟨⟨a, ha⟩, h⟩, fun ⟨⟨a, ha⟩, h⟩ => ⟨a, ha, h⟩⟩

private theorem forM_entryIdentity_eq_undefined (types : List TypeJson) :
    types.forM entryIdentity = .error .undefined ↔
      ∃ front back, types = front ++ .base .bool :: back ∧ ∀ type ∈ front, Buildable type := by
  induction types with
  | nil =>
    refine iff_of_false nofun ?_
    rintro ⟨front, back, h, -⟩
    simp at h
  | cons type types ih =>
    have hentry := entryIdentity_outcome type
    rw [List.forM, except_bind_eq_error, hentry.undefined]
    constructor
    · rintro (rfl | ⟨_, hbuilt, h⟩)
      · exact ⟨[], types, rfl, nofun⟩
      · obtain ⟨front, back, rfl, hfront⟩ := ih.mp h
        refine ⟨type :: front, back, rfl, forall_mem_cons.mpr ⟨?_, hfront⟩⟩
        exact hentry.returns.mp ⟨_, hbuilt⟩
    · rintro ⟨front, back, h, hfront⟩
      cases front with
      | nil => exact Or.inl (List.cons.inj h).1
      | cons first front =>
        obtain ⟨rfl, rfl⟩ := List.cons.inj h
        obtain ⟨hfirst, hfront⟩ := forall_mem_cons.mp hfront
        obtain ⟨_, hbuilt⟩ := hentry.returns.mpr hfirst
        exact Or.inr ⟨_, hbuilt, ih.mpr ⟨front, back, rfl, hfront⟩⟩

private theorem decode_eq_undefined (types : List TypeJson) (bs : ByteString) :
    decode types bs = .error .undefined ↔ LeavesInput types bs := by
  rw [decode, except_bind_eq_error, forM_entryIdentity_eq_undefined, LeavesInput]
  refine or_congr_right ?_
  rw [← returns_forM_entryIdentity, ← decodeLoop_eq_undefined]
  exact ⟨fun ⟨a, ha, h⟩ => ⟨⟨a, ha⟩, h⟩, fun ⟨⟨a, ha⟩, h⟩ => ⟨a, ha, h⟩⟩

/-- The decoder makes no access outside a vector that is not checked. -/
def MemorySafe {α : Type} (x : Except Failure α) : Prop := x ≠ .error .undefined

private theorem decodeBytesArray_eq_undefined (bs : ByteString) :
    decodeBytesArray bs = .error .undefined ↔ decode [makeBytesArray] bs = .error .undefined := by
  rw [decodeBytesArray, except_bind_eq_error]
  refine or_iff_left ?_
  rintro ⟨coders, -, h⟩
  split at h <;> cases h

/-- Building a decoder and decoding is memory-safe exactly on the inputs that are not left. -/
theorem memorySafe_decode_iff (types : List TypeJson) (bs : ByteString) :
    (MemorySafe (decode types bs) ↔ ¬LeavesInput types bs) ∧
      (MemorySafe (decodeBytesArray bs) ↔ ¬LeavesInput [makeBytesArray] bs) := by
  constructor
  · exact not_congr (decode_eq_undefined types bs)
  · rw [MemorySafe, Ne, decodeBytesArray_eq_undefined, decode_eq_undefined]

/-- Ten bytes for a `bytes32`, of which 32 are copied. -/
theorem decode_leaves_input : ¬MemorySafe (decode [.base (.bytes 32)] (List.replicate 10 0)) := by
  rw [MemorySafe, not_not]
  rfl

end CloakBridge.Abicoder
