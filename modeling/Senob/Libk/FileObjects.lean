import Mathlib.Tactic.Ring
import Senob.Libk.Descriptors

/-!
# File objects

The `FIL` of FatFs with its offset, its size and its cluster chain, and the functions that move
them: `f_lseek`, `f_write`, `f_open` and `f_stat`. A cluster is known by its place in the chain,
and the free clusters are counted. Sectors are read and written without errors.
-/

namespace Senob.Libk

/-- The chain of a file, and how many clusters are free. -/
structure Chain where
  clusters : Nat
  free : Nat
  deriving DecidableEq

/-- `create_chain`, asked for the cluster at `index`: it follows the chain or stretches it. The
result is `none` when the disk is full. -/
def Chain.createChain (c : Chain) (index : Nat) : Option Chain :=
  if index < c.clusters then some c
  else if c.free = 0 then none
  else some ⟨c.clusters + 1, c.free - 1⟩

/-- A `FRESULT` other than `FR_OK`. -/
abbrev Failure := { res : FResult // res ≠ .ok }

/-- What a directory entry says of its file, and the clusters of the file. -/
structure DirEntry where
  fsize : Word
  fattrib : Byte
  clusters : Nat
  deriving DecidableEq

/-- A mounted volume, with the entry that each path leads to. -/
structure Volume where
  csize : Nat
  csize_pos : 0 < csize
  free : Nat
  follow : Path → Except Failure Nat
  entry : Nat → DirEntry

/-- `SS(fs)`. -/
def sectorSize : Nat := 512

namespace Volume

/-- The size of a cluster in bytes. -/
def bcs (v : Volume) : Nat := sectorSize * v.csize

def setFree (v : Volume) (free : Nat) : Volume := { v with free := free }

def setEntry (v : Volume) (e : Nat) (entry : DirEntry) : Volume :=
  { v with entry := Function.update v.entry e entry }

/-- `f_stat`. -/
def fStat (v : Volume) (path : Path) : Except Failure DirEntry :=
  match v.follow path with
  | .ok e => .ok (v.entry e)
  | .error res => .error res

/-- The clusters of every file hold its bytes. -/
def Sound (v : Volume) : Prop :=
  ∀ e, (v.entry e).fsize.toNat ≤ (v.entry e).clusters * v.bcs

theorem bcs_pos (v : Volume) : 0 < v.bcs := Nat.mul_pos (by decide) v.csize_pos

@[simp] theorem bcs_setFree (v : Volume) (free : Nat) : (v.setFree free).bcs = v.bcs := rfl

@[simp] theorem fStat_setFree (v : Volume) (free : Nat) (path : Path) :
    (v.setFree free).fStat path = v.fStat path := rfl

end Volume

/-- The fields of `FIL` that sizes depend on: `write` is `FA_WRITE` in `flag`, and `clusters` the
length of the chain that starts at `obj.sclust`. -/
structure FileObject where
  write : Bool
  err : FResult
  fptr : Word
  objsize : Word
  clusters : Nat
  deriving DecidableEq

/-- What a FatFs function leaves of the volume and the file object, and its result. -/
structure Reply where
  volume : Volume
  object : FileObject
  res : FResult

/-! ## `f_lseek` -/

/-- Where the cluster following loop ends. -/
structure Walk where
  chain : Chain
  fptr : Nat
  res : FResult

/-- `while (ofs > bcs)`: in write mode the chain is stretched on the way. -/
def followChain (bcs : Nat) (write : Bool) : Nat → Chain → Nat → Nat → Nat → Walk
  | 0, c, _, ofs, fptr => ⟨c, fptr + ofs, .ok⟩
  | fuel + 1, c, index, ofs, fptr =>
      if bcs < ofs then
        if write then
          match c.createChain (index + 1) with
          | none => ⟨c, fptr + bcs, .ok⟩ -- disk full: `ofs = 0; break;`
          | some c => followChain bcs write fuel c (index + 1) (ofs - bcs) (fptr + bcs)
        else if index + 1 < c.clusters then
          followChain bcs write fuel c (index + 1) (ofs - bcs) (fptr + bcs)
        else ⟨c, fptr + bcs, .intErr⟩
      else ⟨c, fptr + ofs, .ok⟩

/-- The walk to a byte of the file: from the current cluster if that one is not behind it, else
from the first, which is created for a file without clusters. -/
def FileObject.walk (fp : FileObject) (bcs : Nat) (c : Chain) (ofs : Nat) : Walk :=
  let ifptr := fp.fptr.toNat
  if ofs = 0 then ⟨c, 0, .ok⟩
  else if 0 < ifptr ∧ (ifptr - 1) / bcs ≤ (ofs - 1) / bcs then
    let current := (ifptr - 1) / bcs
    followChain bcs fp.write ofs c current (ofs - current * bcs) (current * bcs)
  else
    match c.createChain 0 with
    | none => ⟨c, 0, .ok⟩
    | some c => followChain bcs fp.write ofs c 0 ofs 0

/-- `f_lseek` of a valid file object. -/
def fLseek (v : Volume) (fp : FileObject) (ofs : Word) : Reply :=
  if fp.err ≠ .ok then ⟨v, fp, fp.err⟩
  else
    -- in read-only mode the offset is clipped with the file size
    let ofs := if fp.objsize < ofs ∧ fp.write = false then fp.objsize else ofs
    let w := fp.walk v.bcs ⟨fp.clusters, v.free⟩ ofs.toNat
    let fptr := BitVec.ofNat 32 w.fptr
    if w.res ≠ .ok then
      ⟨v.setFree w.chain.free, { fp with err := w.res, fptr := fptr, clusters := w.chain.clusters },
        w.res⟩
    else
      ⟨v.setFree w.chain.free,
        { fp with
          fptr := fptr
          objsize := if fp.objsize < fptr then fptr else fp.objsize
          clusters := w.chain.clusters }, .ok⟩

/-! ## `f_write` -/

/-- The bytes that one round of `f_write` stores: whole sectors up to the end of the cluster, or
what is left of one sector. -/
def wcnt (csize fptr btw : Nat) : Nat :=
  if fptr % sectorSize = 0 ∧ 0 < btw / sectorSize then
    sectorSize * min (btw / sectorSize) (csize - fptr / sectorSize % csize)
  else min (sectorSize - fptr % sectorSize) btw

/-- The loop of `f_write`, which stops when no cluster is free. -/
def writeLoop (csize : Nat) : Nat → Chain → Nat → Nat → Chain × Nat
  | 0, c, fptr, _ => (c, fptr)
  | fuel + 1, c, fptr, btw =>
      if btw = 0 then (c, fptr)
      else
        let boundary := fptr % sectorSize = 0 ∧ fptr / sectorSize % csize = 0
        match if boundary then c.createChain (fptr / (sectorSize * csize)) else some c with
        | none => (c, fptr)
        | some c =>
            let n := wcnt csize fptr btw
            writeLoop csize fuel c (fptr + n) (btw - n)

/-- `f_write` of a valid file object. The bytes written are the distance that `fptr` moves. -/
def fWrite (v : Volume) (fp : FileObject) (btw : Word) : Reply :=
  if fp.err ≠ .ok then ⟨v, fp, fp.err⟩
  else if fp.write = false then ⟨v, fp, .denied⟩
  else
    let btw := if fp.fptr + btw < fp.fptr then 0xFFFFFFFF - fp.fptr else btw
    let (c, fptr) :=
      writeLoop v.csize btw.toNat ⟨fp.clusters, v.free⟩ fp.fptr.toNat btw.toNat
    let fptr := BitVec.ofNat 32 fptr
    ⟨v.setFree c.free,
      { fp with
        fptr := fptr
        objsize := if fp.objsize < fptr then fptr else fp.objsize
        clusters := c.clusters }, .ok⟩

/-! ## `f_open` -/

/-- The lookups with a new entry, or why `dir_register` fails. -/
abbrev Register := Except Failure (Path → Except Failure Nat)

namespace Volume

/-- The entry that `f_open` works on, created if need be, and if it is to be truncated. -/
def openEntry (v : Volume) (path : Path) (mode : Byte) (register : Register) :
    Except Failure (Volume × Nat × Bool) :=
  let creates := mode &&& 0x1C ≠ 0
  match v.follow path with
  | .error res =>
      if creates ∧ res.1 = .noFile then do
        let follow ← register
        let e ← follow path
        .ok (({ v with follow := follow }).setEntry e ⟨0, 0, 0⟩, e, true)
      else .error res
  | .ok e =>
      let attr := (v.entry e).fattrib
      if creates then
        if attr &&& 0x11 ≠ 0 then .error ⟨.denied, by decide⟩
        else if mode &&& 0x04 ≠ 0 then .error ⟨.exist, by decide⟩
        else .ok (v, e, mode &&& 0x08 ≠ 0)
      else if attr &&& 0x10 ≠ 0 then .error ⟨.noFile, by decide⟩
      else if mode &&& 0x02 ≠ 0 ∧ attr &&& 0x01 ≠ 0 then .error ⟨.denied, by decide⟩
      else .ok (v, e, false)

/-- `FA_CREATE_ALWAYS` on an entry: `remove_chain` frees its clusters. -/
def truncate (v : Volume) (e : Nat) : Volume :=
  (v.setEntry e ⟨0, 0x20, 0⟩).setFree (v.free + (v.entry e).clusters)

/-- `f_open`: `FA_SEEKEND` starts at the end of the file. -/
def fOpen (v : Volume) (path : Path) (mode : Byte) (register : Register) :
    Except Failure (Volume × FileObject) := do
  let (v, e, truncates) ← v.openEntry path mode register
  let v := if truncates then v.truncate e else v
  let size := (v.entry e).fsize
  .ok (v, ⟨mode &&& 0x02 ≠ 0, .ok, if mode &&& 0x20 ≠ 0 then size else 0, size,
    (v.entry e).clusters⟩)

end Volume

/-! ## Cluster chains -/

/-- What a stretched chain keeps: the clusters that it has or may still get. -/
def Chain.total (c : Chain) : Nat := c.clusters + c.free

theorem createChain_eq_none {c : Chain} {index : Nat} (h : c.createChain index = none) :
    c.clusters ≤ index ∧ c.free = 0 := by
  unfold Chain.createChain at h
  split_ifs at h with hlt hfree
  exact ⟨Nat.le_of_not_lt hlt, hfree⟩

theorem createChain_eq_some {c d : Chain} {index : Nat} (h : c.createChain index = some d) :
    d.total = c.total ∧ c.clusters ≤ d.clusters ∧ (index ≤ c.clusters → index < d.clusters) := by
  unfold Chain.createChain at h
  split_ifs at h with hlt hfree
  · obtain rfl := Option.some.inj h
    exact ⟨rfl, le_rfl, fun _ => hlt⟩
  · obtain rfl := Option.some.inj h
    refine ⟨?_, Nat.le_succ _, Nat.lt_succ_of_le⟩
    change c.clusters + 1 + (c.free - 1) = c.clusters + c.free
    omega

/-- A chain and an offset that it reaches, after a function that was to go to `target`. -/
structure Reaches (bcs : Nat) (c : Chain) (target : Nat) (d : Chain) (fptr : Nat) : Prop where
  reached : fptr = min target (c.total * bcs)
  total : d.total = c.total
  grows : c.clusters ≤ d.clusters
  covered : fptr ≤ d.clusters * bcs

variable {bcs : Nat} {c : Chain}

theorem clusters_mul_le_total (c : Chain) (bcs : Nat) : c.clusters * bcs ≤ c.total * bcs :=
  Nat.mul_le_mul_right _ (Nat.le_add_right _ _)

/-- An offset within the chain is reached as it is. -/
theorem Reaches.of_le {target : Nat} (h : target ≤ c.clusters * bcs) :
    Reaches bcs c target c target :=
  ⟨(Nat.min_eq_left (h.trans (clusters_mul_le_total c bcs))).symm, rfl, le_rfl, h⟩

/-- A chain that cannot be stretched is reached up to its end. -/
theorem Reaches.of_full {target fptr : Nat} (hfree : c.free = 0) (hend : c.clusters * bcs = fptr)
    (h : fptr ≤ target) : Reaches bcs c target c fptr := by
  refine ⟨?_, rfl, le_rfl, hend.ge⟩
  rw [Chain.total, hfree, Nat.add_zero, hend, Nat.min_eq_right h]

theorem Reaches.trans {d e : Chain} {target fptr : Nat} (htotal : d.total = c.total)
    (hgrows : c.clusters ≤ d.clusters) (h : Reaches bcs d target e fptr) :
    Reaches bcs c target e fptr :=
  ⟨htotal ▸ h.reached, h.total.trans htotal, hgrows.trans h.grows, h.covered⟩

/-- The loop goes to its target, which lies in the chain unless the chain may be stretched. -/
theorem followChain_reaches {write : Bool} {fuel index ofs : Nat} (hindex : index < c.clusters)
    (hfuel : ofs ≤ fuel) (hbcs : 0 < bcs)
    (hwrite : write = true ∨ index * bcs + ofs ≤ c.clusters * bcs) :
    (followChain bcs write fuel c index ofs (index * bcs)).res = .ok ∧
      Reaches bcs c (index * bcs + ofs)
        (followChain bcs write fuel c index ofs (index * bcs)).chain
        (followChain bcs write fuel c index ofs (index * bcs)).fptr := by
  have hend : (index + 1) * bcs ≤ c.clusters * bcs := Nat.mul_le_mul_right _ hindex
  have hsucc : (index + 1) * bcs = index * bcs + bcs := Nat.succ_mul index bcs
  induction fuel generalizing c index ofs with
  | zero => exact ⟨rfl, Reaches.of_le (by omega)⟩
  | succ fuel ih =>
      unfold followChain
      by_cases hofs : bcs < ofs
      swap
      · rw [if_neg hofs]
        exact ⟨rfl, Reaches.of_le (by omega)⟩
      have htarget : (index + 1) * bcs + (ofs - bcs) = index * bcs + ofs := by omega
      have hnext : (index + 1 + 1) * bcs = (index + 1) * bcs + bcs := Nat.succ_mul _ bcs
      have hrest : ofs - bcs ≤ fuel := by omega
      rw [if_pos hofs, ← hsucc]
      -- In write mode the chain is stretched, else the target lies in it.
      cases write with
      | true =>
          rw [if_pos rfl]
          cases hcreate : c.createChain (index + 1) with
          | none =>
              obtain ⟨hlast, hfree⟩ := createChain_eq_none hcreate
              have hclusters : c.clusters = index + 1 := by omega
              have hle : (index + 1) * bcs ≤ index * bcs + ofs := by omega
              exact ⟨rfl, Reaches.of_full hfree (by rw [hclusters]) hle⟩
          | some d =>
              obtain ⟨htotal, hgrows, hlt⟩ := createChain_eq_some hcreate
              have hlt : index + 1 < d.clusters := hlt hindex
              obtain ⟨hres, hreaches⟩ := ih hlt hrest (Or.inl rfl)
                (Nat.mul_le_mul_right _ hlt) hnext
              rw [htarget] at hreaches
              exact ⟨hres, hreaches.trans htotal hgrows⟩
      | false =>
          have hin : index * bcs + ofs ≤ c.clusters * bcs := hwrite.resolve_left (by decide)
          have hlt : index + 1 < c.clusters := by
            by_contra hlast
            have hle := Nat.mul_le_mul_right bcs (Nat.le_of_not_lt hlast)
            omega
          rw [if_neg (by decide), if_pos hlt]
          obtain ⟨hres, hreaches⟩ := ih hlt hrest (Or.inr (by omega))
            (Nat.mul_le_mul_right _ hlt) hnext
          rw [htarget] at hreaches
          exact ⟨hres, hreaches⟩

/-! ## Sound file objects -/

/-- What `f_open` sets up and the other functions keep: the offset is within the file, and the
clusters hold the bytes. -/
structure FileObject.Sound (fp : FileObject) (bcs : Nat) : Prop where
  err : fp.err = .ok
  fptr_le : fp.fptr.toNat ≤ fp.objsize.toNat
  covered : fp.objsize.toNat ≤ fp.clusters * bcs

/-- The bytes that the file can have on the volume. -/
def FileObject.capacity (fp : FileObject) (v : Volume) : Nat :=
  (Chain.total ⟨fp.clusters, v.free⟩) * v.bcs

variable {v : Volume} {fp : FileObject}

theorem FileObject.Sound.le_capacity (h : fp.Sound v.bcs) :
    fp.objsize.toNat ≤ fp.capacity v :=
  h.covered.trans (clusters_mul_le_total ⟨fp.clusters, v.free⟩ v.bcs)

/-- A function that succeeds and moves the offset to `fptr` keeps the file object sound. -/
theorem FileObject.Sound.moved (h : fp.Sound v.bcs) {fptr clusters : Nat}
    (hgrows : fp.clusters ≤ clusters) (hcovered : fptr ≤ clusters * v.bcs) (hword : fptr < 2 ^ 32) :
    FileObject.Sound
      { fp with
        fptr := BitVec.ofNat 32 fptr
        objsize := if fp.objsize < BitVec.ofNat 32 fptr then BitVec.ofNat 32 fptr else fp.objsize
        clusters := clusters } v.bcs ∧
    (if fp.objsize < BitVec.ofNat 32 fptr then BitVec.ofNat 32 fptr else fp.objsize).toNat =
      max fp.objsize.toNat fptr := by
  have htoNat : (BitVec.ofNat 32 fptr).toNat = fptr := by
    rw [BitVec.toNat_ofNat, Nat.mod_eq_of_lt hword]
  have hsize : (if fp.objsize < BitVec.ofNat 32 fptr then BitVec.ofNat 32 fptr
      else fp.objsize).toNat = max fp.objsize.toNat fptr := by
    split_ifs with hlt
    · rw [BitVec.lt_def, htoNat] at hlt
      rw [htoNat, Nat.max_eq_right hlt.le]
    · rw [BitVec.lt_def, htoNat] at hlt
      exact (Nat.max_eq_left (Nat.le_of_not_lt hlt)).symm
  have hold : fp.objsize.toNat ≤ clusters * v.bcs :=
    h.covered.trans (Nat.mul_le_mul_right _ hgrows)
  refine ⟨⟨h.err, ?_, ?_⟩, hsize⟩
  · change (BitVec.ofNat 32 fptr).toNat ≤ _
    rw [hsize, htoNat]
    exact Nat.le_max_right _ _
  · change (if fp.objsize < BitVec.ofNat 32 fptr then BitVec.ofNat 32 fptr
      else fp.objsize).toNat ≤ _
    rw [hsize]
    exact Nat.max_le.mpr ⟨hold, hcovered⟩

/-- What `f_lseek` and `f_write` do to a sound file object: the offset moves to `goal`, and the
file grows if that lies behind its end. -/
structure Moved (v : Volume) (fp : FileObject) (goal : Nat) (r : Reply) : Prop where
  res : r.res = .ok
  volume : ∃ free, r.volume = v.setFree free
  write : r.object.write = fp.write
  fptr : r.object.fptr.toNat = goal
  objsize : r.object.objsize.toNat = max fp.objsize.toNat goal
  capacity : r.object.capacity r.volume = fp.capacity v
  sound : r.object.Sound v.bcs

/-- The end of both functions: the offset that the chain reaches is stored. -/
theorem FileObject.Sound.moved_of_reaches (h : fp.Sound v.bcs) {target fptr : Nat} {d : Chain}
    (hreaches : Reaches v.bcs ⟨fp.clusters, v.free⟩ target d fptr) (hword : target < 2 ^ 32) :
    Moved v fp (min target (fp.capacity v))
      ⟨v.setFree d.free,
        { fp with
          fptr := BitVec.ofNat 32 fptr
          objsize := if fp.objsize < BitVec.ofNat 32 fptr then BitVec.ofNat 32 fptr else fp.objsize
          clusters := d.clusters }, .ok⟩ := by
  have hfptr : fptr = min target (fp.capacity v) := hreaches.reached
  have hlt : fptr < 2 ^ 32 := by omega
  obtain ⟨hsound, hsize⟩ := h.moved hreaches.grows hreaches.covered hlt
  refine ⟨rfl, ⟨d.free, rfl⟩, rfl, ?_, ?_, ?_, hsound⟩
  · change (BitVec.ofNat 32 fptr).toNat = _
    rw [BitVec.toNat_ofNat, Nat.mod_eq_of_lt hlt, hfptr]
  · change (if fp.objsize < BitVec.ofNat 32 fptr then BitVec.ofNat 32 fptr
      else fp.objsize).toNat = _
    rw [hsize, hfptr]
  · exact congrArg (· * v.bcs) hreaches.total

/-- The walk goes to its target, which lies in the chain unless the file may be written. -/
theorem FileObject.Sound.walk_reaches (h : fp.Sound v.bcs) {ofs : Nat}
    (hwrite : fp.write = true ∨ ofs ≤ fp.objsize.toNat) :
    (fp.walk v.bcs ⟨fp.clusters, v.free⟩ ofs).res = .ok ∧
      Reaches v.bcs ⟨fp.clusters, v.free⟩ ofs (fp.walk v.bcs ⟨fp.clusters, v.free⟩ ofs).chain
        (fp.walk v.bcs ⟨fp.clusters, v.free⟩ ofs).fptr := by
  have hbcs := v.bcs_pos
  have hin : fp.write = true ∨ ofs ≤ fp.clusters * v.bcs := hwrite.imp_right h.covered.trans'
  unfold FileObject.walk
  by_cases hofs : ofs = 0
  · rw [if_pos hofs, hofs]
    exact ⟨rfl, Reaches.of_le (Nat.zero_le _)⟩
  rw [if_neg hofs]
  by_cases hsame : 0 < fp.fptr.toNat ∧
      (fp.fptr.toNat - 1) / v.bcs ≤ (ofs - 1) / v.bcs
  · rw [if_pos hsame]
    obtain ⟨hpos, hle⟩ := hsame
    have hbase : (fp.fptr.toNat - 1) / v.bcs * v.bcs ≤ ofs - 1 :=
      (Nat.mul_le_mul_right _ hle).trans (Nat.div_mul_le_self _ _)
    have hcurrent : (fp.fptr.toNat - 1) / v.bcs < fp.clusters := by
      have hcovered := h.fptr_le.trans h.covered
      exact (Nat.div_lt_iff_lt_mul hbcs).mpr (by omega)
    have htarget : (fp.fptr.toNat - 1) / v.bcs * v.bcs +
        (ofs - (fp.fptr.toNat - 1) / v.bcs * v.bcs) = ofs := by omega
    obtain ⟨hres, hreaches⟩ := followChain_reaches (c := ⟨fp.clusters, v.free⟩) hcurrent
      (Nat.sub_le ofs ((fp.fptr.toNat - 1) / v.bcs * v.bcs)) hbcs (htarget.symm ▸ hin)
    rw [htarget] at hreaches
    exact ⟨hres, hreaches⟩
  · rw [if_neg hsame]
    cases hcreate : Chain.createChain ⟨fp.clusters, v.free⟩ 0 with
    | none =>
        obtain ⟨hempty, hfree⟩ := createChain_eq_none hcreate
        have hclusters : fp.clusters = 0 := Nat.le_zero.mp hempty
        have hend : fp.clusters * v.bcs = 0 := by rw [hclusters, Nat.zero_mul]
        exact ⟨rfl, Reaches.of_full hfree hend (Nat.zero_le _)⟩
    | some d =>
        obtain ⟨htotal, hgrows, hlt⟩ := createChain_eq_some hcreate
        have hgrown : fp.write = true ∨ 0 * v.bcs + ofs ≤ d.clusters * v.bcs := by
          rw [Nat.zero_mul, Nat.zero_add]
          exact hin.imp_right (·.trans (Nat.mul_le_mul_right _ hgrows))
        obtain ⟨hres, hreaches⟩ :=
          followChain_reaches (hlt (Nat.zero_le _)) le_rfl hbcs hgrown
        rw [Nat.zero_mul] at hres hreaches
        rw [Nat.zero_add] at hreaches
        exact ⟨hres, hreaches.trans htotal hgrows⟩

/-- Where `f_lseek` goes: to the offset if that is in the file, else as far as the mode and the
free clusters allow. -/
def FileObject.seekEnd (fp : FileObject) (v : Volume) (ofs : Nat) : Nat :=
  if fp.write then min ofs (fp.capacity v) else min ofs fp.objsize.toNat

theorem fLseek_moved (h : fp.Sound v.bcs) (ofs : Word) :
    Moved v fp (fp.seekEnd v ofs.toNat) (fLseek v fp ofs) := by
  unfold fLseek
  rw [if_neg (not_not.mpr h.err)]
  by_cases hclip : fp.objsize < ofs ∧ fp.write = false
  · have hin : fp.write = true ∨ fp.objsize.toNat ≤ fp.objsize.toNat := Or.inr le_rfl
    obtain ⟨hres, hreaches⟩ := h.walk_reaches hin
    have hgoal : fp.seekEnd v ofs.toNat = min fp.objsize.toNat (fp.capacity v) := by
      have hlt := BitVec.lt_def.mp hclip.1
      have hle := h.le_capacity
      simp only [FileObject.seekEnd, hclip.2, Bool.false_eq_true, if_false]
      omega
    simp only [if_pos hclip, hres, ne_eq, not_true_eq_false, if_false, hgoal]
    exact h.moved_of_reaches hreaches fp.objsize.isLt
  · have hwrite : fp.write = true ∨ ofs.toNat ≤ fp.objsize.toNat := by
      by_contra hnot
      rw [not_or, Bool.not_eq_true, Nat.not_le] at hnot
      exact hclip ⟨BitVec.lt_def.mpr hnot.2, hnot.1⟩
    obtain ⟨hres, hreaches⟩ := h.walk_reaches hwrite
    have hgoal : fp.seekEnd v ofs.toNat = min ofs.toNat (fp.capacity v) := by
      have hle := h.le_capacity
      unfold FileObject.seekEnd
      split_ifs with hmode
      · rfl
      · have hin := hwrite.resolve_left hmode
        omega
    simp only [if_neg hclip, hres, ne_eq, not_true_eq_false, if_false, hgoal]
    exact h.moved_of_reaches hreaches ofs.isLt

/-! ## Writing -/

/-- A round of `f_write` stores something, no more than asked for, and stays in its cluster. -/
theorem wcnt_bounds {csize : Nat} (hcsize : 0 < csize) (fptr : Nat) {btw : Nat} (hbtw : 0 < btw) :
    0 < wcnt csize fptr btw ∧ wcnt csize fptr btw ≤ btw ∧
      fptr % (sectorSize * csize) + wcnt csize fptr btw ≤ sectorSize * csize := by
  have hsector : 0 < sectorSize := by decide
  have hmod : fptr % (sectorSize * csize) =
      fptr % sectorSize + sectorSize * (fptr / sectorSize % csize) := Nat.mod_mul
  have hcsect : fptr / sectorSize % csize < csize := Nat.mod_lt _ hcsize
  have hin : fptr % sectorSize < sectorSize := Nat.mod_lt _ hsector
  have hrest : sectorSize * (fptr / sectorSize % csize) +
      sectorSize * (csize - fptr / sectorSize % csize) = sectorSize * csize := by
    rw [← Nat.mul_add, Nat.add_sub_cancel' hcsect.le]
  unfold wcnt
  split_ifs with hwhole
  · obtain ⟨haligned, hcc⟩ := hwhole
    have hleft := Nat.mul_le_mul_left sectorSize
      (Nat.min_le_left (btw / sectorSize) (csize - fptr / sectorSize % csize))
    have hright := Nat.mul_le_mul_left sectorSize
      (Nat.min_le_right (btw / sectorSize) (csize - fptr / sectorSize % csize))
    have hdiv := Nat.mul_div_le btw sectorSize
    refine ⟨Nat.mul_pos hsector (by omega), hleft.trans hdiv, ?_⟩
    rw [hmod, haligned]
    omega
  · have hone : sectorSize ≤ sectorSize * (csize - fptr / sectorSize % csize) :=
      Nat.le_mul_of_pos_right _ (by omega)
    rw [hmod]
    omega

/-- The offset is on a cluster boundary as `f_write` tests it. -/
theorem boundary_iff (csize fptr : Nat) :
    fptr % sectorSize = 0 ∧ fptr / sectorSize % csize = 0 ↔ fptr % (sectorSize * csize) = 0 := by
  have hmod : fptr % (sectorSize * csize) =
      fptr % sectorSize + sectorSize * (fptr / sectorSize % csize) := Nat.mod_mul
  rw [hmod, Nat.add_eq_zero_iff, Nat.mul_eq_zero]
  exact and_congr_right fun _ => (or_iff_right (by decide)).symm

/-- A round that has its cluster ends within the chain. -/
theorem add_wcnt_le {csize fptr btw : Nat} (hcsize : 0 < csize) (hbtw : 0 < btw) {d : Chain}
    (hcluster : fptr / (sectorSize * csize) < d.clusters) :
    fptr + wcnt csize fptr btw ≤ d.clusters * (sectorSize * csize) := by
  obtain ⟨_, _, hstays⟩ := wcnt_bounds hcsize fptr hbtw
  have hend : (fptr / (sectorSize * csize) + 1) * (sectorSize * csize) ≤
      d.clusters * (sectorSize * csize) := Nat.mul_le_mul_right _ hcluster
  have hsplit := Nat.div_add_mod' fptr (sectorSize * csize)
  rw [Nat.succ_mul] at hend
  omega

/-- The loop stores everything, or fills the last free cluster. -/
theorem writeLoop_reaches {csize : Nat} (hcsize : 0 < csize) {fuel fptr btw : Nat}
    (hin : fptr ≤ c.clusters * (sectorSize * csize)) (hfuel : btw ≤ fuel) :
    Reaches (sectorSize * csize) c (fptr + btw) (writeLoop csize fuel c fptr btw).1
      (writeLoop csize fuel c fptr btw).2 := by
  have hpos : 0 < sectorSize * csize := Nat.mul_pos (by decide) hcsize
  induction fuel generalizing c fptr btw with
  | zero =>
      obtain rfl : btw = 0 := Nat.le_zero.mp hfuel
      exact Reaches.of_le hin
  | succ fuel ih =>
      unfold writeLoop
      by_cases hbtw : btw = 0
      · rw [if_pos hbtw, hbtw]
        exact Reaches.of_le hin
      obtain ⟨hstored, hle, -⟩ := wcnt_bounds hcsize fptr (Nat.pos_of_ne_zero hbtw)
      have htarget : fptr + wcnt csize fptr btw + (btw - wcnt csize fptr btw) = fptr + btw := by
        omega
      rw [if_neg hbtw]
      -- Only a file pointer at the start of a cluster asks for the next one.
      by_cases hboundary : fptr % sectorSize = 0 ∧ fptr / sectorSize % csize = 0
      · have hmod := (boundary_iff csize fptr).mp hboundary
        have hdiv : fptr / (sectorSize * csize) * (sectorSize * csize) = fptr :=
          Nat.div_mul_cancel (Nat.dvd_of_mod_eq_zero hmod)
        have hindex : fptr / (sectorSize * csize) ≤ c.clusters :=
          Nat.le_of_mul_le_mul_right (hdiv.symm ▸ hin) hpos
        simp only [if_pos hboundary]
        cases hcreate : c.createChain (fptr / (sectorSize * csize)) with
        | none =>
            obtain ⟨hlast, hfree⟩ := createChain_eq_none hcreate
            have hend : c.clusters * (sectorSize * csize) = fptr := by
              rw [Nat.le_antisymm hlast hindex, hdiv]
            exact Reaches.of_full hfree hend (Nat.le_add_right _ _)
        | some d =>
            obtain ⟨htotal, hgrows, hlt⟩ := createChain_eq_some hcreate
            have hnext := ih (add_wcnt_le hcsize (Nat.pos_of_ne_zero hbtw) (hlt hindex))
              (by omega : btw - wcnt csize fptr btw ≤ fuel)
            rw [htarget] at hnext
            exact hnext.trans htotal hgrows
      · have hcluster : fptr / (sectorSize * csize) < c.clusters := by
          have hmod : fptr % (sectorSize * csize) ≠ 0 := (boundary_iff csize fptr).not.mp hboundary
          have hsplit := Nat.div_add_mod' fptr (sectorSize * csize)
          exact (Nat.div_lt_iff_lt_mul hpos).mpr (by
            refine lt_of_le_of_ne hin fun heq => hmod ?_
            rw [heq, Nat.mul_mod_left])
        simp only [if_neg hboundary]
        have hnext := ih (add_wcnt_le hcsize (Nat.pos_of_ne_zero hbtw) hcluster)
          (by omega : btw - wcnt csize fptr btw ≤ fuel)
        rw [htarget] at hnext
        exact hnext

/-- Where `f_write` goes: to the end of the bytes, the last offset of a file or the last free
cluster. -/
def FileObject.writeEnd (fp : FileObject) (v : Volume) (btw : Nat) : Nat :=
  min (min (fp.fptr.toNat + btw) (2 ^ 32 - 1)) (fp.capacity v)

/-- The check for a wrap-around of `fptr`. -/
theorem clipped_btw (fptr btw : Word) :
    fptr.toNat + (if fptr + btw < fptr then 0xFFFFFFFF - fptr else btw).toNat =
      min (fptr.toNat + btw.toNat) (2 ^ 32 - 1) := by
  have hfptr := fptr.isLt
  have hbtw := btw.isLt
  split_ifs with hwrap
  · rw [BitVec.lt_def, BitVec.toNat_add] at hwrap
    rw [BitVec.toNat_sub]
    have hones : (0xFFFFFFFF : Word).toNat = 2 ^ 32 - 1 := rfl
    omega
  · rw [BitVec.lt_def, BitVec.toNat_add] at hwrap
    omega

theorem fWrite_moved (h : fp.Sound v.bcs) (hwrite : fp.write = true) (btw : Word) :
    Moved v fp (fp.writeEnd v btw.toNat) (fWrite v fp btw) := by
  have hin : fp.fptr.toNat ≤ fp.clusters * v.bcs := h.fptr_le.trans h.covered
  have hreaches := writeLoop_reaches (c := ⟨fp.clusters, v.free⟩) v.csize_pos hin
    (le_refl (if fp.fptr + btw < fp.fptr then 0xFFFFFFFF - fp.fptr else btw).toNat)
  rw [clipped_btw] at hreaches
  unfold fWrite
  rw [if_neg (not_not.mpr h.err), if_neg (by rw [hwrite]; decide)]
  exact h.moved_of_reaches hreaches (by omega)

/-! ## Opening -/

theorem Volume.Sound.setEntry (h : v.Sound) (e : Nat) {entry : DirEntry}
    (hentry : entry.fsize.toNat ≤ entry.clusters * v.bcs) : (v.setEntry e entry).Sound := by
  intro e'
  change ((Function.update v.entry e entry) e').fsize.toNat ≤
    ((Function.update v.entry e entry) e').clusters * v.bcs
  rcases eq_or_ne e' e with rfl | hne
  · rw [Function.update_self]
    exact hentry
  · rw [Function.update_of_ne hne]
    exact h e'

theorem Volume.Sound.truncate (h : v.Sound) (e : Nat) : (v.truncate e).Sound :=
  h.setEntry e (Nat.zero_le _)

/-- The entry that `f_open` found is the one that its path leads to afterwards. -/
theorem Volume.openEntry_sound (h : v.Sound) {path : Path} {mode : Byte} {register : Register}
    {found : Volume} {e : Nat} {truncates : Bool}
    (hfound : v.openEntry path mode register = .ok (found, e, truncates)) :
    found.Sound ∧ found.follow path = .ok e := by
  unfold Volume.openEntry at hfound
  cases hfollow : v.follow path with
  | error res =>
      simp only [hfollow] at hfound
      split_ifs at hfound with hcreates
      cases register with
      | error res => cases hfound
      | ok follow =>
          cases hnew : follow path with
          | error res =>
              simp only [bind, Except.bind, hnew] at hfound
              cases hfound
          | ok e' =>
              simp only [bind, Except.bind, hnew] at hfound
              cases hfound
              have hsame : ({ v with follow := follow } : Volume).Sound := h
              exact ⟨hsame.setEntry e (Nat.zero_le _), hnew⟩
  | ok e' =>
      simp only [hfollow] at hfound
      split_ifs at hfound
      all_goals
        cases hfound
        exact ⟨h, hfollow⟩

/-- A file object that was opened is sound, and the directory has its size. -/
theorem Volume.fOpen_spec (h : v.Sound) {path : Path} {mode : Byte} {register : Register}
    {opened : Volume} {object : FileObject}
    (hopen : v.fOpen path mode register = .ok (opened, object)) :
    object.Sound opened.bcs ∧
      ∃ entry, opened.fStat path = .ok entry ∧ entry.fsize = object.objsize := by
  unfold Volume.fOpen at hopen
  cases hfound : v.openEntry path mode register with
  | error res =>
      rw [hfound] at hopen
      cases hopen
  | ok found =>
      obtain ⟨found, e, truncates⟩ := found
      obtain ⟨hsound, hfollow⟩ := Volume.openEntry_sound h hfound
      rw [hfound] at hopen
      cases hopen
      have hleads : (if truncates then found.truncate e else found).follow path = .ok e := by
        cases truncates <;> exact hfollow
      have hopened : (if truncates then found.truncate e else found).Sound := by
        cases truncates with
        | true => exact hsound.truncate e
        | false => exact hsound
      refine ⟨⟨rfl, ?_, hopened e⟩, _, ?_, rfl⟩
      · by_cases hseek : mode &&& 0x20 ≠ 0
        · exact (congrArg BitVec.toNat (if_pos hseek)).le
        · exact (congrArg BitVec.toNat (if_neg hseek)).le.trans (Nat.zero_le _)
      · unfold Volume.fStat
        rw [hleads]

end Senob.Libk
