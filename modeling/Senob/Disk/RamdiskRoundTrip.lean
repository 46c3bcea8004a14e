import Mathlib.Data.List.Basic
import Senob.Disk.Ramdisk

/-!
# Reading back what was written

A range of sectors of the ramdisk that is written and then read again. The two bound checks
compare with the size of the disk what is not a byte offset, and turn away a range that ends
with the disk when it also begins with it.
-/

namespace Senob.Disk

/-! ## Copying -/

/-- The bytes from `a` on and those from `b` on have no byte in common. -/
def Apart (a : BitVec 32) (n : Nat) (b : BitVec 32) (m : Nat) : Prop :=
  ∀ i < n, ∀ j < m, a + BitVec.ofNat 32 i ≠ b + BitVec.ofNat 32 j

theorem add_ofNat_inj {a : BitVec 32} {i j : Nat} (hi : i < 2 ^ 32) (hj : j < 2 ^ 32)
    (h : a + BitVec.ofNat 32 i = a + BitVec.ofNat 32 j) : i = j := by
  have hnat := congrArg BitVec.toNat h
  simp only [BitVec.toNat_add, BitVec.toNat_ofNat] at hnat
  omega

/-- The bytes are copied, and no other byte is written. -/
theorem memcpy_spec (memory : Memory) {dest src len : BitVec 32}
    (hapart : Apart src len.toNat dest len.toNat) :
    (∀ i < len.toNat, memcpy memory dest src len (dest + BitVec.ofNat 32 i) =
      memory (src + BitVec.ofNat 32 i)) ∧
    ∀ a, (∀ i < len.toNat, a ≠ dest + BitVec.ofNat 32 i) →
      memcpy memory dest src len a = memory a := by
  have hrounds : ∀ n ≤ len.toNat, ∀ copied : Memory,
      copied = (List.range n).foldl (fun memory i => Function.update memory
        (dest + BitVec.ofNat 32 i) (memory (src + BitVec.ofNat 32 i))) memory →
      (∀ i < n, copied (dest + BitVec.ofNat 32 i) = memory (src + BitVec.ofNat 32 i)) ∧
      ∀ a, (∀ i < n, a ≠ dest + BitVec.ofNat 32 i) → copied a = memory a := by
    intro n
    induction n with
    | zero =>
        rintro - copied rfl
        exact ⟨fun i hi => absurd hi (Nat.not_lt_zero i), fun _ _ => rfl⟩
    | succ n ih =>
        rintro hn copied rfl
        obtain ⟨hcopied, hkept⟩ := ih (Nat.le_of_succ_le hn) _ rfl
        rw [List.range_succ, List.foldl_concat]
        generalize (List.range n).foldl _ memory = before at hcopied hkept ⊢
        -- The byte that is read in the last round has not been written before.
        have hread : before (src + BitVec.ofNat 32 n) = memory (src + BitVec.ofNat 32 n) :=
          hkept _ fun i hi => hapart n (by omega) i (by omega)
        refine ⟨fun i hi => ?_, fun a ha => ?_⟩
        · by_cases heq : i = n
          · rw [heq, Function.update_self, hread]
          · have hlen := len.isLt
            rw [Function.update_of_ne fun h => heq (add_ofNat_inj (by omega) (by omega) h)]
            exact hcopied i (by omega)
        · rw [Function.update_of_ne (ha n (Nat.lt_succ_self n))]
          exact hkept a fun i hi => ha i (Nat.lt_succ_of_lt hi)
  exact hrounds len.toNat (Nat.le_refl _) _ rfl

/-! ## The range of a call -/

section Range

variable {memory : Memory} {size garbage garbage' buffer out sector count : BitVec 32}

/-- The sectors lie on the disk. -/
def OnDisk (size sector count : BitVec 32) : Prop :=
  (sector.toNat + count.toNat) * 512 ≤ size.toNat

instance (size sector count : BitVec 32) : Decidable (OnDisk size sector count) :=
  inferInstanceAs (Decidable (_ ≤ _))

theorem OnDisk.bytes (h : OnDisk size sector count) :
    (count * sectorSize).toNat = count.toNat * 512 := by
  have hsize := size.isLt
  have hsector : sectorSize.toNat = 512 := rfl
  unfold OnDisk at h
  rw [BitVec.toNat_mul, hsector]
  omega

/-- The bytes of the range are at their offsets from the start of the disk. -/
theorem sector_address (sector : BitVec 32) (i : Nat) :
    ramdiskVirtualAddress + sector * sectorSize + BitVec.ofNat 32 i =
      ramdiskVirtualAddress + BitVec.ofNat 32 (sector.toNat * 512 + i) := by
  refine BitVec.eq_of_toNat_eq ?_
  have hsector : sectorSize.toNat = 512 := rfl
  simp only [BitVec.toNat_add, BitVec.toNat_mul, BitVec.toNat_ofNat, hsector]
  omega

/-- Only the whole disk is refused by `disk_write_sector`. -/
theorem OnDisk.write_refused_iff (h : OnDisk size sector count) :
    size ≤ sector + count * sectorSize ↔ sector = 0 ∧ count.toNat * 512 = size.toNat := by
  have hsize := size.isLt
  have hbytes := h.bytes
  have hzero : sector = 0 ↔ sector.toNat = 0 := BitVec.toNat_eq
  unfold OnDisk at h
  rw [BitVec.le_def, BitVec.toNat_add, hbytes, hzero]
  omega

/-- Only the whole disk is refused by `disk_read_sector`, when it is a single sector. -/
theorem OnDisk.read_refused_iff (h : OnDisk size sector count) (hcount : 1 ≤ count.toNat) :
    size ≤ sector + sectorSize ↔ sector = 0 ∧ size.toNat = 512 := by
  have hsize := size.isLt
  have hsector : sectorSize.toNat = 512 := rfl
  have hzero : sector = 0 ↔ sector.toNat = 0 := BitVec.toNat_eq
  unfold OnDisk at h
  rw [BitVec.le_def, BitVec.toNat_add, hsector, hzero]
  omega

/-! ## Writing and reading -/

/-- What a program that writes a range and reads it again relies on. -/
structure ReadsBack (memory : Memory) (size garbage garbage' buffer out sector count : BitVec 32) :
    Prop where
  write_ok : (diskWrite memory size garbage buffer sector count 0).result = .ok
  replaced : ∀ i < count.toNat * 512,
    (diskWrite memory size garbage buffer sector count 0).memory
      (ramdiskVirtualAddress + BitVec.ofNat 32 (sector.toNat * 512 + i)) =
    memory (buffer + BitVec.ofNat 32 i)
  kept : ∀ a, (∀ i < count.toNat * 512,
      a ≠ ramdiskVirtualAddress + BitVec.ofNat 32 (sector.toNat * 512 + i)) →
    (diskWrite memory size garbage buffer sector count 0).memory a = memory a
  read_ok : (diskRead (diskWrite memory size garbage buffer sector count 0).memory size garbage'
    out sector count 0).result = .ok
  yields : ∀ i < count.toNat * 512,
    (diskRead (diskWrite memory size garbage buffer sector count 0).memory size garbage'
      out sector count 0).memory (out + BitVec.ofNat 32 i) =
    memory (buffer + BitVec.ofNat 32 i)

theorem diskWrite_of_accepted (h : ¬ size ≤ sector + count * sectorSize) :
    diskWrite memory size garbage buffer sector count 0 =
      ⟨memcpy memory (ramdiskVirtualAddress + sector * sectorSize) buffer (count * sectorSize),
        some ⟨ramdiskVirtualAddress + sector * sectorSize, count * sectorSize⟩, .ok⟩ := by
  rw [diskWrite, if_pos rfl, diskWriteSector, if_neg h]
  rfl

theorem diskRead_of_accepted (h : ¬ size ≤ sector + sectorSize) :
    diskRead memory size garbage out sector count 0 =
      ⟨memcpy memory out (ramdiskVirtualAddress + sector * sectorSize) (count * sectorSize),
        some ⟨ramdiskVirtualAddress + sector * sectorSize, count * sectorSize⟩, .ok⟩ := by
  rw [diskRead, if_pos rfl, diskReadSector, if_neg h]
  rfl

/-- A buffer apart from the disk is apart from each range of it. -/
theorem OnDisk.apart (h : OnDisk size sector count)
    (hbuffer : Apart buffer (count.toNat * 512) ramdiskVirtualAddress size.toNat) :
    Apart buffer (count * sectorSize).toNat (ramdiskVirtualAddress + sector * sectorSize)
      (count * sectorSize).toNat := by
  intro i hi j hj
  rw [h.bytes] at hi hj
  rw [sector_address]
  unfold OnDisk at h
  exact hbuffer i hi _ (by omega)

theorem Apart.symm {a b : BitVec 32} {n m : Nat} (h : Apart a n b m) : Apart b m a n :=
  fun i hi j hj heq => h j hj i hi heq.symm

theorem OnDisk.readsBack (h : OnDisk size sector count) (hcount : 1 ≤ count.toNat)
    (hshort : ¬ (sector = 0 ∧ count.toNat * 512 = size.toNat))
    (hbuffer : Apart buffer (count.toNat * 512) ramdiskVirtualAddress size.toNat)
    (hout : Apart out (count.toNat * 512) ramdiskVirtualAddress size.toNat) :
    ReadsBack memory size garbage garbage' buffer out sector count := by
  have hwrite : ¬ size ≤ sector + count * sectorSize := mt h.write_refused_iff.mp hshort
  have hread : ¬ size ≤ sector + sectorSize := by
    rw [h.read_refused_iff hcount]
    rintro ⟨hsector, hsize⟩
    have hrange : (sector.toNat + count.toNat) * 512 ≤ size.toNat := h
    exact hshort ⟨hsector, by omega⟩
  obtain ⟨hcopied, hkept⟩ := memcpy_spec memory (h.apart hbuffer)
  obtain ⟨hreturned, -⟩ := memcpy_spec
    (diskWrite memory size garbage buffer sector count 0).memory (h.apart hout).symm
  simp only [h.bytes, sector_address] at hcopied hkept hreturned
  have hreplaced : ∀ i < count.toNat * 512,
      (diskWrite memory size garbage buffer sector count 0).memory
        (ramdiskVirtualAddress + BitVec.ofNat 32 (sector.toNat * 512 + i)) =
      memory (buffer + BitVec.ofNat 32 i) := by
    rw [diskWrite_of_accepted hwrite]
    exact hcopied
  refine ⟨by rw [diskWrite_of_accepted hwrite], hreplaced, ?_,
    by rw [diskRead_of_accepted hread], fun i hi => ?_⟩
  · rw [diskWrite_of_accepted hwrite]
    exact hkept
  · rw [diskRead_of_accepted hread, ← hreplaced i hi]
    exact hreturned i hi

/-- Every range on the disk can be written and read back, whatever a missing `return` leaves
behind, exactly if it is not the whole disk. -/
theorem OnDisk.readsBack_iff (h : OnDisk size sector count) (hcount : 1 ≤ count.toNat)
    (hbuffer : Apart buffer (count.toNat * 512) ramdiskVirtualAddress size.toNat)
    (hout : Apart out (count.toNat * 512) ramdiskVirtualAddress size.toNat) :
    (∀ garbage garbage', ReadsBack memory size garbage garbage' buffer out sector count) ↔
      ¬ (sector = 0 ∧ count.toNat * 512 = size.toNat) := by
  constructor
  · intro hreads hwhole
    have hok := (hreads 1 1).write_ok
    rw [diskWrite, if_pos rfl, diskWriteSector, if_pos (h.write_refused_iff.mpr hwhole)] at hok
    have herror : (translateResult ⟨memory, none, 1⟩).result = .error := rfl
    rw [herror] at hok
    cases hok
  · exact fun hshort _ _ => h.readsBack hcount hshort hbuffer hout

end Range

/-- A buffer below the window, where the window does not run past the end of the address
space. -/
theorem apart_of_below {buffer : BitVec 32} {n m : Nat} (hbuffer : buffer.toNat + n ≤ 0xE0400000)
    (hm : m ≤ windowSize) : Apart buffer n ramdiskVirtualAddress m := by
  intro i hi j hj heq
  have hnat := congrArg BitVec.toNat heq
  simp only [BitVec.toNat_add, BitVec.toNat_ofNat, ramdiskVirtualAddress_toNat] at hnat
  unfold windowSize at hm
  rw [ramdiskVirtualAddress_toNat] at hm
  omega

/-- A disk of 64 sectors cannot be written in one call. -/
theorem not_forall_readsBack :
    ¬ ∀ (memory : Memory) (size garbage garbage' buffer out sector count : BitVec 32),
      OnDisk size sector count → 1 ≤ count.toNat →
      Apart buffer (count.toNat * 512) ramdiskVirtualAddress size.toNat →
      Apart out (count.toNat * 512) ramdiskVirtualAddress size.toNat →
      ReadsBack memory size garbage garbage' buffer out sector count := by
  intro hclaim
  have hapart : Apart 0x00800000 (64 * 512) ramdiskVirtualAddress 0x8000 :=
    apart_of_below (by decide) (by decide)
  have hreads := hclaim (fun _ => 0) 0x8000 1 1 0x00800000 0x00800000 0 64 (by decide) (by decide)
    hapart hapart
  exact absurd hreads.write_ok (by decide)

/-- The second sector of a disk of two can be written and read back. -/
theorem readsBack_oneSector : ReadsBack (fun _ => 0) 1024 0 0 0x00800000 0x00801000 1 1 :=
  (OnDisk.readsBack_iff (by decide) (by decide) (apart_of_below (by decide) (by decide))
    (apart_of_below (by decide) (by decide))).mpr (by decide) 0 0

end Senob.Disk
