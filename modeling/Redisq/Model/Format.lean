import Mathlib.Data.Nat.Digits.Defs
import Redisq.Library.Digits
import Redisq.Library.Separator
import Redisq.Model.Store

/-!
# Texts the scripts build and take apart

Ack IDs are `<owner>:<reservation, 20 digits>:<index, 4 digits>`, built by
the batch script and by Go's `ackIDOf` alike.  A member of a priority queue
is the byte 255, sixteen hex digits of a sequence number and the item.
-/

namespace Redisq.Model

/-! ## Numbers -/

/-- A digit of `%d` or `%x`. -/
def digit (d : ℕ) : Byte :=
  if d < 10 then Fin.ofNat 256 (48 + d) else Fin.ofNat 256 (87 + d)

/-- `%0<w>d` of a number. -/
def decimal (w n : ℕ) : Bytes :=
  Digits.padded digit 10 w n

/-- `%016x` of a number. -/
def hex16 (n : ℕ) : Bytes :=
  Digits.padded digit 16 16 n

/-- An integer reply as a Lua number, a double: exact up to 2^53, then the
nearest multiple of the spacing, ties to even. -/
def luaNumber (n : ℕ) : ℕ :=
  if n ≤ 2 ^ 53 then n
  else
    let spacing := 2 ^ (Nat.log 2 n - 52)
    let quotient := n / spacing
    let rest := n % spacing
    let up := spacing < 2 * rest ∨ (spacing = 2 * rest ∧ quotient % 2 = 1)
    (if up then quotient + 1 else quotient) * spacing

/-! ## Ack IDs -/

/-- The byte `:`. -/
def colon : Byte := 58

/-- An ack ID prefix, which names a queue object: not empty and without a
colon, as the base32 text `newID` returns is. -/
@[ext] structure Owner where
  name : Bytes
  nonempty : name ≠ []
  colonFree : colon ∉ name
deriving DecidableEq

/-- Two queue objects, for runs on fixed inputs. -/
def ownerA : Owner := ⟨[65], by decide, by decide⟩

/-- The second one. -/
def ownerB : Owner := ⟨[66], by decide, by decide⟩

/-- `<pre>:<reservation, 20 digits>:<index, 4 digits>`. -/
def ackText (pre : Bytes) (start i : ℕ) : Bytes :=
  pre ++ colon :: (decimal 20 start ++ colon :: decimal 4 i)

/-- The ack ID of item `i`, from 1, of a reservation. -/
def ackIDOf (owner : Owner) (start i : ℕ) : Bytes :=
  owner.name ++ colon :: (decimal 20 start ++ colon :: decimal 4 i)

/-- The ack IDs 1 to `want` of a reservation, in order. -/
def ackIDs (owner : Owner) (start want : ℕ) : List Bytes :=
  (List.range want).map fun i => ackIDOf owner start (i + 1)

/-- `string.match(id, '^(.-):') or ''`: what stands before the first colon,
nothing if there is none. -/
def ownerOf (id : Bytes) : Bytes :=
  if colon ∈ id then id.takeWhile fun b => b ≠ colon else []

/-- Whether `id` starts with an owner and a colon, as the release tests. -/
def ownedBy (owner : Bytes) (id : Bytes) : Bool :=
  id.take (owner.length + 1) = owner ++ [colon]

/-! ## Members of a priority queue -/

/-- The member that holds `item` under sequence number `s`. -/
def memberOf (s : ℕ) (item : Bytes) : Bytes :=
  255 :: (hex16 (luaNumber s) ++ item)

/-- The item a member holds: members without the prefix, from older
versions, are items as they are. -/
def itemOf (m : Bytes) : Bytes :=
  if 17 ≤ m.length ∧ m.head? = some 255 then m.drop 17 else m

/-! ## Facts -/

theorem digit_lt {d e : ℕ} (h : d < e) (he : e < 16) : digit d < digit e := by
  unfold digit
  rw [Fin.lt_def]
  split <;> split <;> simp only [Fin.ofNat_eq_cast, Fin.val_natCast] <;> omega

theorem digit_injective (d : ℕ) (hd : d < 16) (e : ℕ) (he : e < 16)
    (h : digit d = digit e) : d = e := by
  rcases Nat.lt_trichotomy d e with hlt | heq | hgt
  · exact absurd h (digit_lt hlt he).ne
  · exact heq
  · exact absurd h (digit_lt hgt hd).ne'

theorem digit_ne_colon (d : ℕ) (h : d < 10) : digit d ≠ colon := by
  unfold digit colon
  rw [if_pos h, Ne, Fin.ext_iff]
  simp only [Fin.ofNat_eq_cast, Fin.val_natCast]
  show ¬(48 + d) % 256 = 58
  omega

theorem decimal_injective (w : ℕ) {m n : ℕ} (h : decimal w m = decimal w n) : m = n :=
  Digits.padded_injective (by decide)
    (fun d hd e he => digit_injective d (by omega) e (by omega)) w h

theorem colon_notMem_decimal (w n : ℕ) : colon ∉ decimal w n := fun h =>
  Digits.forall_mem_padded (p := fun b => b ≠ colon) (by decide)
    (fun d hd => digit_ne_colon d hd) w n colon h rfl

/-- An ack ID determines its prefix, reservation and index. -/
theorem ackText_injective {pre pre' : Bytes} (hpre : colon ∉ pre) (hpre' : colon ∉ pre')
    {start start' i i' : ℕ} (h : ackText pre start i = ackText pre' start' i') :
    pre = pre' ∧ start = start' ∧ i = i' := by
  obtain ⟨howner, hrest⟩ := Separator.split_first hpre hpre' h
  obtain ⟨hstart, hi⟩ := Separator.split_first
    (colon_notMem_decimal 20 start) (colon_notMem_decimal 20 start') hrest
  exact ⟨howner, decimal_injective 20 hstart, decimal_injective 4 hi⟩

theorem ackIDOf_injective {o o' : Owner} {start start' i i' : ℕ}
    (h : ackIDOf o start i = ackIDOf o' start' i') :
    o = o' ∧ start = start' ∧ i = i' := by
  obtain ⟨howner, hstart, hi⟩ := ackText_injective o.colonFree o'.colonFree h
  exact ⟨Owner.ext howner, hstart, hi⟩

theorem ackIDs_nodup (o : Owner) (start want : ℕ) : (ackIDs o start want).Nodup := by
  refine List.Nodup.map ?_ List.nodup_range
  intro i j h
  exact Nat.succ.inj (ackIDOf_injective h).2.2

@[simp] theorem length_ackIDs (o : Owner) (start want : ℕ) :
    (ackIDs o start want).length = want := by
  rw [ackIDs, List.length_map, List.length_range]

theorem mem_ackIDs {o : Owner} {start want : ℕ} {id : Bytes} :
    id ∈ ackIDs o start want ↔ ∃ i < want, id = ackIDOf o start (i + 1) := by
  simp only [ackIDs, List.mem_map, List.mem_range]
  exact exists_congr fun i => and_congr_right fun _ => eq_comm

/-- The sweep's match recovers the prefix. -/
theorem ownerOf_ackText {pre : Bytes} (hpre : colon ∉ pre) (start i : ℕ) :
    ownerOf (ackText pre start i) = pre := by
  have hmem : colon ∈ ackText pre start i := by simp [ackText]
  rw [ownerOf, if_pos hmem, ackText, Separator.takeWhile_append hpre]

theorem ownerOf_ackIDOf (o : Owner) (start i : ℕ) : ownerOf (ackIDOf o start i) = o.name :=
  ownerOf_ackText o.colonFree start i

/-- The release's test recovers the prefix. -/
theorem ownedBy_ackText {pre pre' : Bytes} (hpre : colon ∉ pre) (hpre' : colon ∉ pre')
    (start i : ℕ) : ownedBy pre (ackText pre' start i) = true ↔ pre = pre' := by
  constructor
  · intro h
    have hstart : pre ++ [colon] <+: ackText pre' start i :=
      (of_decide_eq_true h) ▸ List.take_prefix _ _
    obtain ⟨rest, hrest⟩ := hstart
    rw [List.append_assoc] at hrest
    exact (Separator.split_first hpre hpre' hrest).1
  · rintro rfl
    simp [ownedBy, ackText, List.take_append]

theorem ownedBy_ackIDOf (o o' : Owner) (start i : ℕ) :
    ownedBy o.name (ackIDOf o' start i) = true ↔ o = o' := by
  rw [Owner.ext_iff]
  exact ownedBy_ackText o.colonFree o'.colonFree start i

theorem decimal_eq_fixed {w n : ℕ} (hw : w ≠ 0) (h : n < 10 ^ w) :
    decimal w n = Digits.fixed digit 10 w n :=
  Digits.padded_of_lt digit hw h

/-- Numbers of one width sort as texts do, whatever follows them. -/
theorem decimal_append_lt {w m n : ℕ} (hw : w ≠ 0) (hn : n < 10 ^ w) (h : m < n) (x y : Bytes) :
    decimal w m ++ x < decimal w n ++ y := by
  rw [decimal_eq_fixed hw (h.trans hn), decimal_eq_fixed hw hn]
  exact Digits.fixed_append_lt (fun d e hde he => digit_lt hde (by omega)) w hn h x y

/-- The ack IDs of a reservation sort by index. -/
theorem ackText_lt_of_index {pre : Bytes} {start i j : ℕ} (h : i < j) (hj : j < 10 ^ 4) :
    ackText pre start i < ackText pre start j := by
  have hindex : decimal 4 i ++ [] < decimal 4 j ++ [] :=
    decimal_append_lt (by decide) hj h [] []
  rw [List.append_nil, List.append_nil] at hindex
  apply List.append_left_lt
  refine List.cons_lt_cons_iff.mpr (Or.inr ⟨rfl, ?_⟩)
  exact List.append_left_lt (List.cons_lt_cons_iff.mpr (Or.inr ⟨rfl, hindex⟩))

/-- The ack IDs under one prefix sort by reservation first. -/
theorem ackText_lt_of_start {pre : Bytes} {start start' : ℕ} (h : start < start')
    (hstart : start' < 10 ^ 20) (i j : ℕ) : ackText pre start i < ackText pre start' j := by
  apply List.append_left_lt
  refine List.cons_lt_cons_iff.mpr (Or.inr ⟨rfl, ?_⟩)
  exact decimal_append_lt (by decide) hstart h _ _

theorem ackIDOf_lt_of_index {o : Owner} {start i j : ℕ} (h : i < j) (hj : j < 10 ^ 4) :
    ackIDOf o start i < ackIDOf o start j :=
  ackText_lt_of_index h hj

theorem ackIDOf_lt_of_start {o : Owner} {start start' : ℕ} (h : start < start')
    (hstart : start' < 10 ^ 20) (i j : ℕ) : ackIDOf o start i < ackIDOf o start' j :=
  ackText_lt_of_start h hstart i j

theorem ackIDs_sorted (o : Owner) (start : ℕ) {want : ℕ} (h : want < 10 ^ 4) :
    (ackIDs o start want).Pairwise (· < ·) := by
  rw [ackIDs, List.pairwise_map]
  refine List.pairwise_lt_range.imp_of_mem fun {i j} _ hj hij => ?_
  rw [List.mem_range] at hj
  exact ackIDOf_lt_of_index (by omega) (by omega)

theorem luaNumber_of_le {n : ℕ} (h : n ≤ 2 ^ 53) : luaNumber n = n := if_pos h

theorem hex16_eq_fixed {n : ℕ} (h : n ≤ 2 ^ 53) :
    hex16 n = Digits.fixed digit 16 16 n :=
  Digits.padded_of_lt digit (by decide) (h.trans_lt (by decide))

theorem length_hex16 {n : ℕ} (h : n ≤ 2 ^ 53) : (hex16 n).length = 16 := by
  rw [hex16_eq_fixed h, Digits.length_fixed]

/-- A member gives its item back, whatever the item's bytes are. -/
theorem itemOf_memberOf {s : ℕ} (h : s ≤ 2 ^ 53) (item : Bytes) :
    itemOf (memberOf s item) = item := by
  have hlen : (hex16 s).length = 16 := length_hex16 h
  rw [memberOf, luaNumber_of_le h, itemOf, if_pos, List.drop_succ_cons,
    List.drop_left' hlen]
  constructor
  · rw [List.length_cons, List.length_append, hlen]
    omega
  · rfl

theorem luaNumber_lt {n : ℕ} (h : n < 2 ^ 63) : luaNumber n < 2 ^ 64 := by
  unfold luaNumber
  split
  · omega
  · next hlarge =>
      have hpos : n ≠ 0 := by omega
      have hspacing : 2 ^ (Nat.log 2 n - 52) ≤ n :=
        (Nat.pow_le_pow_right (by decide) (Nat.sub_le _ _)).trans (Nat.pow_log_le_self 2 hpos)
      have hquotient := Nat.div_mul_le_self n (2 ^ (Nat.log 2 n - 52))
      simp only
      split
      · rw [Nat.add_mul, Nat.one_mul]
        omega
      · omega

/-- Wherever INCR can count to, a member gives its item back, even where
sequence numbers are no longer exact. -/
theorem itemOf_memberOf_of_lt {s : ℕ} (h : s < 2 ^ 63) (item : Bytes) :
    itemOf (memberOf s item) = item := by
  have hlen : (hex16 (luaNumber s)).length = 16 := by
    rw [hex16, Digits.padded_of_lt digit (by decide) ((luaNumber_lt h).trans_le (by decide)),
      Digits.length_fixed]
  rw [memberOf, itemOf, if_pos, List.drop_succ_cons, List.drop_left' hlen]
  constructor
  · rw [List.length_cons, List.length_append, hlen]
    omega
  · rfl

/-- Members sort as their sequence numbers, whatever they hold. -/
theorem memberOf_lt {s t : ℕ} (ht : t ≤ 2 ^ 53) (h : s < t) (x y : Bytes) :
    memberOf s x < memberOf t y := by
  have hs : s ≤ 2 ^ 53 := h.le.trans ht
  rw [memberOf, memberOf, luaNumber_of_le hs, luaNumber_of_le ht, hex16_eq_fixed hs,
    hex16_eq_fixed ht, List.cons_lt_cons_iff]
  exact Or.inr ⟨rfl, Digits.fixed_append_lt (fun d e hde he => digit_lt hde he) 16
    (ht.trans_lt (by decide)) h x y⟩

/-- A member determines its sequence number and its item. -/
theorem memberOf_injective {s t : ℕ} (hs : s ≤ 2 ^ 53) (ht : t ≤ 2 ^ 53) {x y : Bytes}
    (h : memberOf s x = memberOf t y) : s = t ∧ x = y := by
  have hst : s = t := by
    rcases Nat.lt_trichotomy s t with hlt | heq | hgt
    · exact absurd h (memberOf_lt ht hlt x y).ne
    · exact heq
    · exact absurd h (memberOf_lt hs hgt y x).ne'
  refine ⟨hst, ?_⟩
  rw [← itemOf_memberOf hs x, h, itemOf_memberOf ht y]

end Redisq.Model
