import EntroQ.Eqmr.RunCodec
import EntroQ.Queues.GCActivation
import EntroQ.Queues.PathCodec

/-! # Names of shards

The shards of a spec `base@N` are numbered, with as many digits as their number has. -/

namespace EntroQ.Shardname
open Foundation Utf8 Queues Eqmr

def itoa (n : ℕ) : GoString := (Nat.toDigits 10 n).map octet

/-- A number in the range of an `int`. -/
def atoi (s : GoString) : Option ℤ :=
  let digits := if s.head? = some (octet '-') ∨ s.head? = some (octet '+') then s.tail else s
  let n : ℤ := if s.head? = some (octet '-') then -digitsValue digits else digitsValue digits
  if isAllDigits digits ∧ -2 ^ 63 ≤ n ∧ n < 2 ^ 63 then some n else none

def minDigits : ℕ := 5

def padded (width i : ℕ) : GoString :=
  List.replicate (width - (itoa i).length) (octet '0') ++ itoa i

def name (base : GoString) (i n : ℕ) : GoString :=
  let width := max minDigits (itoa n).length
  base ++ text "-" ++ padded width i ++ text "-of-" ++ padded width n

def expand (spec : GoString) : Except Text (List GoString) :=
  -- the last at sign is the first from behind
  match cut spec.reverse (octet '@') with
  | none => .error ⟨"shard spec %q has no @N", [.bytes spec]⟩
  | some (count, base) =>
    if base = [] then .error ⟨"shard spec %q has no base name", [.bytes spec]⟩
    else
      match (atoi count.reverse).filter fun n => 1 ≤ n ∧ count.reverse = itoa n.toNat with
      | none => .error ⟨"shard spec %q: shard count must be a positive integer", [.bytes spec]⟩
      | some n => .ok ((List.range n.toNat).map fun i => name base.reverse i n.toNat)

theorem octet_digit {n : ℕ} {c : Char} (h : c ∈ Nat.toDigits 10 n) :
    (octet c).toNat = c.toNat ∧ isDigit (octet c) = true := by
  have hd := Nat.isDigit_of_mem_toDigits (by decide) le_rfl h
  simp only [Char.isDigit, Bool.and_eq_true, decide_eq_true_eq, ge_iff_le,
    UInt32.le_iff_toNat_le] at hd
  have hhi : c.toNat ≤ 57 := hd.2
  have heq : (octet c).toNat = c.toNat := toNat_octet (by omega)
  refine ⟨heq, ?_⟩
  simp only [isDigit, Bool.not_eq_true', Bool.or_eq_false_iff, decide_eq_false_iff_not,
    UInt8.lt_iff_toNat_lt, heq]
  exact ⟨Nat.not_lt.mpr hd.1, Nat.not_lt.mpr hd.2⟩

theorem digitsValue_itoa (n : ℕ) : digitsValue (itoa n) = n := by
  conv_rhs => rw [← Nat.ofDigitChars_toDigits (n := n) (by decide : 1 < 10) le_rfl]
  rw [digitsValue, itoa, List.foldl_map, Nat.ofDigitChars_eq_foldl]
  refine List.foldl_ext _ _ _ fun a c hc => ?_
  rw [(octet_digit hc).1]
  rfl

theorem digitsValue_padded (width i : ℕ) : digitsValue (padded width i) = i := by
  have hzeros (k : ℕ) : digitsValue (List.replicate k (octet '0')) = 0 := by
    induction k with
    | zero => rfl
    | succ k ih => exact ih
  rw [digitsValue, padded, List.foldl_append, ← digitsValue, hzeros]
  exact digitsValue_itoa i

theorem isDigit_itoa {n : ℕ} {b : UInt8} (h : b ∈ itoa n) : isDigit b = true := by
  obtain ⟨c, hc, rfl⟩ := List.mem_map.mp h
  exact (octet_digit hc).2

theorem notMem_itoa {b : UInt8} (hb : isDigit b = false) (n : ℕ) : b ∉ itoa n := by
  intro h
  simp [isDigit_itoa h] at hb

theorem atoi_itoa {n : ℕ} (hn : n < 2 ^ 63) : atoi (itoa n) = some (n : ℤ) := by
  have hhead : ∀ {b}, isDigit b = false → (itoa n).head? ≠ some b := fun hb h =>
    notMem_itoa hb n (List.mem_of_head? h)
  have hdigits : isAllDigits (itoa n) = true := by
    simp only [isAllDigits, Bool.and_eq_true, List.all_eq_true, decide_eq_true_eq]
    exact ⟨fun b hb => isDigit_itoa hb, by simp [itoa]⟩
  have hminus := hhead (b := octet '-') (by decide)
  have hplus := hhead (b := octet '+') (by decide)
  simp only [atoi, hminus, hplus, or_self, if_false, digitsValue_itoa, hdigits, true_and]
  exact if_pos (by omega)

theorem name_injective (base : GoString) (n : ℕ) : Function.Injective fun i => name base i n := by
  intro i j h
  simp only [name, List.append_assoc, List.append_cancel_left_eq] at h
  have hpad := List.append_cancel_right h
  rw [← digitsValue_padded _ i, hpad, digitsValue_padded]

theorem expand_spec {base : GoString} (hbase : base ≠ []) {n : ℕ} (hn : 1 ≤ n) (hint : n < 2 ^ 63) :
    expand (base ++ octet '@' :: itoa n) = .ok ((List.range n).map fun i => name base i n) := by
  have hcut : cut (base ++ octet '@' :: itoa n).reverse (octet '@') =
      some ((itoa n).reverse, base.reverse) := by
    rw [List.reverse_append, List.reverse_cons, List.append_assoc, List.singleton_append]
    exact Queues.cut_append (by simpa using notMem_itoa (by decide) n) _
  have hbase' : base.reverse ≠ [] := by simpa using hbase
  simp only [expand, hcut, hbase', if_false, List.reverse_reverse, atoi_itoa hint]
  simp [Option.filter, hn]

end EntroQ.Shardname
