import WatchExpr.Memory
import Mathlib.Tactic.Common

/-!
# Memory as a map of bytes

A memory determines at most one byte at each address: that of the region written last among those
that cover the address. Looking up bytes one by one answers from this map. Asking the region written
last for all of them at once does so too, unless they run past the end of the address space.
-/

namespace WatchExpr

namespace Region

/-- The addresses at which a region has a byte. They may lie past the end of the address space. -/
def Covers (r : Region) (x : Nat) : Prop :=
  r.address.toNat ≤ x ∧ x < r.address.toNat + r.bytes.length

instance (r : Region) (x : Nat) : Decidable (r.Covers x) :=
  inferInstanceAs (Decidable (_ ∧ _))

/-- Whether a region has all of the bytes from an address on. -/
def Spans (r : Region) (address : UInt64) (size : Nat) : Prop :=
  r.address.toNat ≤ address.toNat ∧ address.toNat + size ≤ r.address.toNat + r.bytes.length

instance (r : Region) (address : UInt64) (size : Nat) : Decidable (r.Spans address size) :=
  inferInstanceAs (Decidable (_ ∧ _))

/-- The byte of a region at an address that it covers. -/
def byteAt? (r : Region) (x : Nat) : Option UInt8 :=
  r.bytes[x - r.address.toNat]?

theorem from?_eq (r : Region) (address : UInt64) :
    r.from? address =
      if r.Spans address 0 then some (r.bytes.drop (address.toNat - r.address.toNat)) else none := by
  have hiff : (r.address ≤ address ∧ address.toNat - r.address.toNat ≤ r.bytes.length) ↔
      r.Spans address 0 := by
    simp only [Spans, UInt64.le_iff_toNat_le]
    omega
  simp only [from?, hiff]

theorem byte?_eq (r : Region) (address : UInt64) :
    r.byte? address = if r.Covers address.toNat then r.byteAt? address.toNat else none := by
  simp only [byte?, from?_eq, byteAt?]
  by_cases hc : r.Covers address.toNat
  · have hs : r.Spans address 0 := ⟨hc.1, Nat.le_of_lt hc.2⟩
    simp [hc, hs, List.head?_drop]
  · simp only [hc, ↓reduceIte]
    split
    · rename_i hs
      have hlen : r.bytes.length ≤ address.toNat - r.address.toNat := by
        simp only [Spans, Covers] at hs hc
        omega
      simp [List.drop_eq_nil_of_le hlen]
    · rfl

theorem read?_eq (r : Region) (address : UInt64) (size : Nat) :
    r.read? address size =
      if r.Spans address size then
        some ((r.bytes.drop (address.toNat - r.address.toNat)).take size)
      else none := by
  simp only [read?, from?_eq]
  by_cases hs : r.Spans address size
  · have h0 : r.Spans address 0 := ⟨hs.1, Nat.le_trans (Nat.le_add_right _ _) hs.2⟩
    have hlen : size ≤ r.bytes.length - (address.toNat - r.address.toNat) := by
      simp only [Spans] at hs
      omega
    simp [hs, h0, hlen]
  · simp only [hs, ↓reduceIte]
    split
    · rename_i h0
      have hlen : ¬ size ≤ r.bytes.length - (address.toNat - r.address.toNat) := by
        simp only [Spans] at hs h0
        omega
      simp [hlen]
    · rfl

end Region

namespace Memory

/-- The byte at an address: that of the region written last among those that cover it. -/
def byteAt? (m : Memory) (x : Nat) : Option UInt8 :=
  (m.regions.find? (·.Covers x)).bind (·.byteAt? x)

/-- What reading should yield: one byte for each address, all of them in the address space. -/
def Reads (m : Memory) (address size : Nat) (bytes : List UInt8) : Prop :=
  bytes.length = size ∧
    ∀ i < size, address + i < UInt64.size ∧ m.byteAt? (address + i) = bytes[i]?

/-- The region written last has all of the bytes, and the last of them lies past the end of the
address space. -/
def Overruns (m : Memory) (address : UInt64) (size : Nat) : Prop :=
  UInt64.size < address.toNat + size ∧ ∃ r ∈ m.regions.head?, r.Spans address size

/-! ## Byte by byte -/

theorem byte?_eq (m : Memory) (address : UInt64) : m.byte? address = m.byteAt? address.toNat := by
  obtain ⟨regions⟩ := m
  simp only [byte?, byteAt?]
  induction regions with
  | nil => rfl
  | cons r rs ih =>
      rw [List.findSome?_cons, Region.byte?_eq]
      by_cases hc : r.Covers address.toNat
      · have hlt : address.toNat - r.address.toNat < r.bytes.length := by
          have := hc.2
          have := hc.1
          omega
        simp [hc, Region.byteAt?, List.getElem?_eq_getElem hlt]
      · simpa [hc, List.find?_cons] using ih

theorem reads_zero_iff {m : Memory} {x : Nat} {bytes : List UInt8} :
    m.Reads x 0 bytes ↔ bytes = [] := by
  simp [Reads]

theorem reads_succ_iff {m : Memory} {x size : Nat} {bytes : List UInt8} :
    m.Reads x (size + 1) bytes ↔ x < UInt64.size ∧
      ∃ b bs, m.byteAt? x = some b ∧ m.Reads (x + 1) size bs ∧ bytes = b :: bs := by
  constructor
  · rintro ⟨hlen, hall⟩
    obtain ⟨b, bs, rfl⟩ := List.exists_cons_of_length_eq_add_one hlen
    refine ⟨(hall 0 (Nat.succ_pos _)).1, b, bs, (hall 0 (Nat.succ_pos _)).2, ⟨?_, ?_⟩, rfl⟩
    · simpa using hlen
    · intro i hi
      have hstep : x + 1 + i = x + (i + 1) := by omega
      rw [hstep]
      exact hall (i + 1) (Nat.succ_lt_succ hi)
  · rintro ⟨hx, b, bs, hb, ⟨hlen, hall⟩, rfl⟩
    refine ⟨by simp [hlen], fun i hi => ?_⟩
    cases i with
    | zero => exact ⟨hx, by simpa using hb⟩
    | succ i =>
        have hstep : x + (i + 1) = x + 1 + i := by omega
        rw [hstep]
        exact hall i (Nat.lt_of_succ_lt_succ hi)

theorem bytes?_eq_some_iff (m : Memory) (x size : Nat) (bytes : List UInt8) :
    m.bytes? x size = some bytes ↔ m.Reads x size bytes := by
  induction size generalizing x bytes with
  | zero =>
      rw [reads_zero_iff, bytes?, Option.some_inj]
      exact eq_comm
  | succ size ih =>
      rw [reads_succ_iff, bytes?]
      split
      · rename_i hx
        have hword : (UInt64.ofNat x).toNat = x := UInt64.toNat_ofNat_of_lt' hx
        rw [byte?_eq, hword]
        simp only [Option.bind_eq_some_iff, Option.map_eq_some_iff, ih, hx, true_and]
        constructor
        · rintro ⟨b, hb, bs, hbs, rfl⟩
          exact ⟨b, bs, hb, hbs, rfl⟩
        · rintro ⟨b, bs, hb, hbs, rfl⟩
          exact ⟨b, hb, bs, hbs, rfl⟩
      · rename_i hx
        simp [hx]

/-! ## All bytes at once -/

/-- A region that has all of the bytes hands out the ones that the map has there, as far as the
region is the one written last. -/
theorem byteAt?_of_spans {m : Memory} {r : Region} {address : UInt64} {size i : Nat}
    (hr : m.regions.head? = some r) (hs : r.Spans address size) (hi : i < size) :
    m.byteAt? (address.toNat + i) =
      ((r.bytes.drop (address.toNat - r.address.toNat)).take size)[i]? := by
  obtain ⟨hlow, hhigh⟩ := hs
  obtain ⟨rs, hregions⟩ : ∃ rs, m.regions = r :: rs := List.head?_eq_some_iff.1 hr
  have hc : r.Covers (address.toNat + i) := ⟨by omega, by omega⟩
  have hoff : address.toNat + i - r.address.toNat = address.toNat - r.address.toNat + i := by omega
  simp only [byteAt?, hregions, List.find?_cons, hc, decide_true, Option.bind_some,
    Region.byteAt?, hoff, List.getElem?_take_of_lt hi, List.getElem?_drop]

theorem read?_of_spans {m : Memory} {r : Region} {address : UInt64} {size : Nat}
    (hr : m.regions.head? = some r) (hs : r.Spans address size) :
    m.read? address size =
      some ((r.bytes.drop (address.toNat - r.address.toNat)).take size) := by
  simp [read?, hr, Region.read?_eq, hs]

theorem read?_of_not_spans {m : Memory} {address : UInt64} {size : Nat}
    (h : ¬∃ r ∈ m.regions.head?, r.Spans address size) :
    m.read? address size = m.bytes? address.toNat size := by
  have hnone : m.regions.head?.bind (·.read? address size) = none := by
    refine Option.bind_eq_none_iff.2 fun r hr => ?_
    rw [Region.read?_eq, if_neg fun hs => h ⟨r, hr, hs⟩]
  simp [read?, hnone]

/-- Within the address space the region written last yields what the map has. -/
theorem reads_of_spans {m : Memory} {r : Region} {address : UInt64} {size : Nat}
    (hr : m.regions.head? = some r) (hs : r.Spans address size)
    (hend : address.toNat + size ≤ UInt64.size) :
    m.Reads address.toNat size
      ((r.bytes.drop (address.toNat - r.address.toNat)).take size) := by
  refine ⟨?_, fun i hi => ⟨by omega, byteAt?_of_spans hr hs hi⟩⟩
  obtain ⟨hlow, hhigh⟩ := hs
  rw [List.length_take, List.length_drop]
  omega

/-- Both ways of reading agree unless the bytes run past the end of the address space. -/
theorem read?_eq_bytes?_of_not_overruns {m : Memory} {address : UInt64} {size : Nat}
    (h : ¬m.Overruns address size) : m.read? address size = m.bytes? address.toNat size := by
  by_cases hlast : ∃ r ∈ m.regions.head?, r.Spans address size
  · obtain ⟨r, hr, hs⟩ := hlast
    have hend : address.toNat + size ≤ UInt64.size := Nat.not_lt.1 fun hlt => h ⟨hlt, r, hr, hs⟩
    rw [read?_of_spans hr hs, eq_comm, bytes?_eq_some_iff]
    exact reads_of_spans hr hs hend
  · exact read?_of_not_spans hlast

theorem not_reads_of_overruns {m : Memory} {address : UInt64} {size : Nat}
    (h : m.Overruns address size) (bytes : List UInt8) :
    ¬m.Reads address.toNat size bytes := by
  rintro ⟨-, hall⟩
  have hend := h.1
  have hlt : address.toNat < UInt64.size := address.toNat_lt
  have := (hall (UInt64.size - address.toNat) (by omega)).1
  omega

/-- The bytes of a region are read back as long as no region written later covers any of them. -/
theorem read?_of_not_covered {m : Memory} {later earlier : List Region} {r : Region}
    (hm : m.regions = later ++ r :: earlier)
    (hend : r.address.toNat + r.bytes.length ≤ UInt64.size)
    (hlater : ∀ r' ∈ later, ∀ x, r.Covers x → ¬r'.Covers x) :
    m.read? r.address r.bytes.length = some r.bytes := by
  have hover : ¬m.Overruns r.address r.bytes.length := fun h => absurd h.1 (Nat.not_lt.2 hend)
  rw [read?_eq_bytes?_of_not_overruns hover, bytes?_eq_some_iff]
  refine ⟨rfl, fun i hi => ⟨by omega, ?_⟩⟩
  have hc : r.Covers (r.address.toNat + i) := ⟨by omega, by omega⟩
  have hnone : later.find? (·.Covers (r.address.toNat + i)) = none :=
    List.find?_eq_none.2 fun r' hr' => by simpa using hlater r' hr' _ hc
  simp only [byteAt?, hm, List.find?_append, hnone, List.find?_cons, hc, decide_true,
    Option.none_or, Option.bind_some, Region.byteAt?, Nat.add_sub_cancel_left]

/-- Reading answers from the map of bytes, and asking the region written last is the same as looking
up bytes one by one, in all cases but one: that region has all of the bytes, and they run past the
end of the address space. -/
theorem read?_agrees_iff_not_overruns (m : Memory) (address : UInt64) (size : Nat) :
    ((∀ bytes, m.read? address size = some bytes ↔ m.Reads address.toNat size bytes) ↔
        ¬m.Overruns address size) ∧
      (m.read? address size = m.bytes? address.toNat size ↔ ¬m.Overruns address size) := by
  have hover : m.Overruns address size →
      (∃ bytes, m.read? address size = some bytes) ∧ m.bytes? address.toNat size = none := by
    intro h
    obtain ⟨r, hr, hs⟩ := h.2
    refine ⟨⟨_, read?_of_spans hr hs⟩, Option.eq_none_iff_forall_ne_some.2 fun bytes hb => ?_⟩
    exact not_reads_of_overruns h bytes ((bytes?_eq_some_iff ..).1 hb)
  constructor
  · constructor
    · intro hall h
      obtain ⟨⟨bytes, hb⟩, -⟩ := hover h
      exact not_reads_of_overruns h bytes ((hall bytes).1 hb)
    · intro h bytes
      rw [read?_eq_bytes?_of_not_overruns h, bytes?_eq_some_iff]
  · constructor
    · intro heq h
      obtain ⟨⟨bytes, hb⟩, hnone⟩ := hover h
      rw [heq, hnone] at hb
      cases hb
    · exact read?_eq_bytes?_of_not_overruns

/-- The two bytes of a region at the last address are read as if the address space went on. -/
theorem read?_past_last_address :
    let m : Memory := Memory.write {} 0xFFFFFFFFFFFFFFFF [1, 2]
    m.read? 0xFFFFFFFFFFFFFFFF 2 = some [1, 2] ∧ m.bytes? 0xFFFFFFFFFFFFFFFF 2 = none ∧
      ¬m.Reads 0xFFFFFFFFFFFFFFFF 2 [1, 2] := by
  refine ⟨by decide, by decide, ?_⟩
  rintro ⟨-, hall⟩
  exact absurd (hall 1 (by decide)).1 (by decide)

end Memory

end WatchExpr
