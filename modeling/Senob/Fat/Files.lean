import Senob.Fat.ChainRuns
import Senob.Fat.Mount

/-!
# File objects and their data

`f_read`, `f_write` and `f_lseek` with the bytes that they move. A file object has a buffer for
one sector. Whole sectors pass between the caller and the drive directly, and a dirty buffer takes
the place of what the drive holds; the rest goes through the buffer, which is written back when
another sector is needed.
-/

namespace Senob.Fat

open Libk (FResult)

abbrev Byte := BitVec 8

/-- `clst2sect`; 0 stands for a cluster that does not exist. -/
def Layout.clst2sect (l : Layout) (clst : Dword) : Dword :=
  let clst := clst - 2
  if l.nFatent - 2 ≤ clst then 0 else l.database + l.csize.setWidth 32 * clst

/-- `FIL`, with the four bits of `flag` that these functions use. -/
structure Fil where
  readable : Bool
  writable : Bool
  modified : Bool
  dirty : Bool
  err : FResult
  fptr : Dword
  objsize : Dword
  sclust : Dword
  clust : Dword
  sect : Dword
  buf : Sector

/-- A file object and the volume that it was opened on. -/
structure Opened where
  volume : Volume
  fp : Fil

namespace Opened

/-- A dirty buffer is written back. -/
def writeBack (o : Opened) : FResult × Opened :=
  if o.fp.dirty then
    match o.volume.drive.diskWrite (fun _ => o.fp.buf) o.fp.sect 1 with
    | some drive => (.ok, ⟨{ o.volume with drive := drive }, { o.fp with dirty := false }⟩)
    | none => (.diskErr, o)
  else (.ok, o)

/-- The buffer is filled with a sector. -/
def fill (o : Opened) (sect : Dword) : FResult × Opened :=
  match o.volume.drive.diskRead sect 1 with
  | some buff => (.ok, { o with fp := { o.fp with buf := buff 0 } })
  | none => (.diskErr, o)

/-- `ABORT`. -/
def abort (o : Opened) (res : FResult) : Opened := { o with fp := { o.fp with err := res } }

/-- The sector of the file pointer in its cluster. -/
def csect (o : Opened) : Dword := o.fp.fptr / 512 &&& (o.volume.fs.csize.setWidth 32 - 1)

/-- `cc`: the sectors that are transferred directly, up to the end of the cluster. -/
def direct (o : Opened) (count : Dword) : Dword :=
  let csize : Dword := o.volume.fs.csize.setWidth 32
  let cc := count / 512
  if csize < o.csect + cc then csize - o.csect else cc

/-- The bytes of the sector of the file pointer that are transferred through the buffer. -/
def rest (o : Opened) (count : Dword) : Dword :=
  let cnt := 512 - o.fp.fptr % 512
  if count < cnt then count else cnt

/-! ## `f_read` -/

/-- The cluster of the file pointer, which is another one on a cluster boundary. -/
def readCluster (o : Opened) : FResult × Opened :=
  if o.csect = 0 then
    let (clst, v) := if o.fp.fptr = 0 then (o.fp.sclust, o.volume) else o.volume.getFat o.fp.clust
    let o := { o with volume := v }
    if clst < 2 then (.intErr, o)
    else if clst = 0xFFFFFFFF then (.diskErr, o)
    else (.ok, { o with fp := { o.fp with clust := clst } })
  else (.ok, o)

/-- The buffer takes another sector, unless it holds it already. -/
def readSector (o : Opened) (sect : Dword) : FResult × Opened :=
  if o.fp.sect ≠ sect then
    match o.writeBack with
    | (.ok, o) =>
        match o.fill sect with
        | (.ok, o) => (.ok, { o with fp := { o.fp with sect := sect } })
        | (res, o) => (res, o)
    | (res, o) => (res, o)
  else (.ok, o)

/-- The bytes that one round of `f_read` copies to `rbuff`. -/
structure Chunk where
  rcnt : Dword
  bytes : Nat → Byte

/-- The sectors behind `rbuff` after `disk_read`, one of which may be in the buffer. -/
def overlay (o : Opened) (buff : Nat → Sector) (sect cc : Dword) : Nat → Sector :=
  if o.fp.dirty ∧ o.fp.sect - sect < cc then
    Function.update buff (o.fp.sect - sect).toNat o.fp.buf
  else buff

/-- The bytes of the buffer from the file pointer on. -/
def extract (o : Opened) (btr : Dword) : Chunk :=
  ⟨o.rest btr, fun i => o.fp.buf (ofs ((o.fp.fptr % 512).toNat + i))⟩

/-- A round of the loop of `f_read`. -/
def readRound (o : Opened) (btr : Dword) : Except FResult Chunk × Opened :=
  if o.fp.fptr % 512 = 0 then -- on the sector boundary
    match o.readCluster with
    | (.ok, o) =>
        let sect := o.volume.layout.clst2sect o.fp.clust
        if sect = 0 then (.error .intErr, o)
        else
          let sect := sect + o.csect
          if 0 < btr / 512 then
            let cc := o.direct btr
            match o.volume.drive.diskRead sect cc.toNat with
            | some buff =>
                (.ok ⟨512 * cc, fun i => o.overlay buff sect cc (i / 512) (ofs i)⟩, o)
            | none => (.error .diskErr, o)
          else
            match o.readSector sect with
            | (.ok, o) => (.ok (o.extract btr), o)
            | (res, o) => (.error res, o)
    | (res, o) => (.error res, o)
  else (.ok (o.extract btr), o)

/-- `fp->fptr += rcnt`. -/
def advance (o : Opened) (cnt : Dword) : Opened :=
  { o with fp := { o.fp with fptr := o.fp.fptr + cnt } }

/-- What a function leaves, and what it has copied to `rbuff`; `*br` is the length of it. -/
structure Reading where
  res : FResult
  bytes : List Byte
  opened : Opened

/-- The loop of `f_read`, with the bytes that are already copied. -/
def readLoop : Nat → Opened → Dword → List Byte → Option Reading
  | 0, _, _, _ => none
  | fuel + 1, o, btr, bytes =>
      if btr = 0 then some ⟨.ok, bytes, o⟩
      else
        match o.readRound btr with
        | (.ok c, o) =>
            readLoop fuel (o.advance c.rcnt) (btr - c.rcnt)
              (bytes ++ (List.range c.rcnt.toNat).map c.bytes)
        | (.error res, o) => some ⟨res, bytes, o.abort res⟩

/-- `f_read` of a valid file object. -/
def fRead (o : Opened) (btr : Dword) : Option Reading :=
  if o.fp.err ≠ .ok then some ⟨o.fp.err, [], o⟩
  else if o.fp.readable = false then some ⟨.denied, [], o⟩
  else
    let remain := o.fp.objsize - o.fp.fptr
    let btr := if remain < btr then remain else btr
    readLoop (btr.toNat + 1) o btr []

/-! ## `f_write` -/

/-- How a round of a loop ends, if not with an error. -/
inductive Round (α : Type) where
  | next (a : α)
  /-- `break`: no cluster is free. -/
  | full
  | abort (res : FResult)

/-- The cluster of the file pointer, which on a cluster boundary may have to be created. -/
def writeCluster (o : Opened) : Option (Round Unit × Opened) :=
  if o.csect = 0 then
    let found :=
      if o.fp.fptr = 0 then
        if o.fp.sclust = 0 then o.volume.createChain 0 else some (o.fp.sclust, o.volume)
      else o.volume.createChain o.fp.clust
    found.map fun out =>
      let clst := out.1
      let o := { o with volume := out.2 }
      if clst = 0 then (.full, o)
      else if clst = 1 then (.abort .intErr, o)
      else if clst = 0xFFFFFFFF then (.abort .diskErr, o)
      else
        let sclust := if o.fp.sclust = 0 then clst else o.fp.sclust
        (.next (), { o with fp := { o.fp with clust := clst, sclust := sclust } })
  else some (.next (), o)

/-- The sectors of a buffer. -/
def sectors (wbuff : Nat → Byte) (i : Nat) : Sector := fun j => wbuff (i * 512 + j)

/-- Whole sectors are written directly, and the buffer gets the one of them that it holds. -/
def writeDirect (o : Opened) (wbuff : Nat → Byte) (sect cc : Dword) : Round Dword × Opened :=
  match o.volume.drive.diskWrite (sectors wbuff) sect cc.toNat with
  | some drive =>
      let o := { o with volume := { o.volume with drive := drive } }
      if o.fp.sect - sect < cc then
        (.next (512 * cc), { o with
          fp := { o.fp with buf := sectors wbuff (o.fp.sect - sect).toNat, dirty := false } })
      else (.next (512 * cc), o)
  | none => (.abort .diskErr, o)

/-- The buffer takes another sector, but what lies behind the end of the file is not read. -/
def writeSector (o : Opened) (sect : Dword) : FResult × Opened :=
  match if o.fp.sect ≠ sect ∧ o.fp.fptr < o.fp.objsize then o.fill sect else (.ok, o) with
  | (.ok, o) => (.ok, { o with fp := { o.fp with sect := sect } })
  | (res, o) => (res, o)

/-- Bytes are fitted to the sector in the buffer. -/
def fit (o : Opened) (wbuff : Nat → Byte) (btw : Dword) : Round Dword × Opened :=
  let start := (o.fp.fptr % 512).toNat
  let wcnt := o.rest btw
  (.next wcnt, { o with
    fp := { o.fp with
      buf := fun j =>
        if start ≤ j.val ∧ j.val < start + wcnt.toNat then wbuff (j.val - start) else o.fp.buf j
      dirty := true } })

/-- A round of the loop of `f_write`. -/
def writeRound (o : Opened) (wbuff : Nat → Byte) (btw : Dword) :
    Option (Round Dword × Opened) :=
  if o.fp.fptr % 512 = 0 then -- on the sector boundary
    o.writeCluster.map fun
      | (.next (), o) =>
          match o.writeBack with
          | (.ok, o) =>
              let sect := o.volume.layout.clst2sect o.fp.clust
              if sect = 0 then (.abort .intErr, o)
              else
                let sect := sect + o.csect
                if 0 < btw / 512 then o.writeDirect wbuff sect (o.direct btw)
                else
                  match o.writeSector sect with
                  | (.ok, o) => o.fit wbuff btw
                  | (res, o) => (.abort res, o)
          | (res, o) => (.abort res, o)
      | (.full, o) => (.full, o)
      | (.abort res, o) => (.abort res, o)
  else some (o.fit wbuff btw)

/-- The file pointer moves behind the bytes that were written, and may take the end of the file
with it. -/
def grow (o : Opened) (wcnt : Dword) : Opened :=
  let fptr := o.fp.fptr + wcnt
  { o with fp := { o.fp with
    fptr := fptr
    objsize := if o.fp.objsize < fptr then fptr else o.fp.objsize } }

/-- What a function leaves, and `*bw`. -/
structure Writing where
  res : FResult
  bw : Dword
  opened : Opened

/-- The loop of `f_write`. -/
def writeLoop : Nat → Opened → (Nat → Byte) → Dword → Dword → Option Writing
  | 0, _, _, _, _ => none
  | fuel + 1, o, wbuff, btw, bw =>
      if btw = 0 then some ⟨.ok, bw, o⟩
      else
        match o.writeRound wbuff btw with
        | none => none
        | some (.next wcnt, o) =>
            writeLoop fuel (o.grow wcnt) (fun i => wbuff (wcnt.toNat + i)) (btw - wcnt) (bw + wcnt)
        | some (.full, o) => some ⟨.ok, bw, o⟩
        | some (.abort res, o) => some ⟨res, bw, o.abort res⟩

/-- `FA_MODIFIED` is set. -/
def modify (o : Opened) : Opened := { o with fp := { o.fp with modified := true } }

/-- `f_write` of a valid file object. -/
def fWrite (o : Opened) (wbuff : Nat → Byte) (btw : Dword) : Option Writing :=
  if o.fp.err ≠ .ok then some ⟨o.fp.err, 0, o⟩
  else if o.fp.writable = false then some ⟨.denied, 0, o⟩
  else
    let btw := if o.fp.fptr + btw < o.fp.fptr then 0xFFFFFFFF - o.fp.fptr else btw
    (writeLoop (btw.toNat + 1) o wbuff btw 0).map fun w =>
      if w.res = .ok then { w with opened := w.opened.modify } else w

/-! ## `f_lseek` -/

/-- `bcs`: the bytes of a cluster. -/
def bcs (o : Opened) : Dword := o.volume.fs.csize.setWidth 32 * 512

/-- Where the cluster following loop ends: the distance from there, and the cluster. -/
structure Place where
  ofs : Dword
  clst : Dword

/-- The cluster following loop. In write mode the chain is stretched on the way. -/
def seekLoop : Nat → Opened → Place → Option (Except FResult Place × Opened)
  | 0, _, _ => none
  | fuel + 1, o, p =>
      if o.bcs < p.ofs then
        let ofs := p.ofs - o.bcs
        let o := o.advance o.bcs
        let found :=
          if o.fp.writable then o.volume.createChain p.clst else some (o.volume.getFat p.clst)
        match found with
        | none => none
        | some (clst, v) =>
            let o := { o with volume := v }
            if o.fp.writable ∧ clst = 0 then some (.ok ⟨0, clst⟩, o) -- disk full
            else if clst = 0xFFFFFFFF then some (.error .diskErr, o)
            else if clst ≤ 1 ∨ o.volume.fs.nFatent ≤ clst then some (.error .intErr, o)
            else seekLoop fuel { o with fp := { o.fp with clust := clst } } ⟨ofs, clst⟩
      else some (.ok p, o)

/-- The cluster that the loop starts at: the current one, unless the way leads back. -/
def seekStart (o : Opened) (ofs : Dword) : Option (Except FResult Place × Opened) :=
  let ifptr := o.fp.fptr
  if 0 < ifptr ∧ (ifptr - 1) / o.bcs ≤ (ofs - 1) / o.bcs then
    let fptr := (ifptr - 1) &&& ~~~(o.bcs - 1)
    some (.ok ⟨ofs - fptr, o.fp.clust⟩, { o with fp := { o.fp with fptr := fptr } })
  else
    let o := { o with fp := { o.fp with fptr := 0 } }
    if o.fp.sclust = 0 then
      (o.volume.createChain 0).map fun out =>
        let clst := out.1
        let o := { o with volume := out.2 }
        if clst = 1 then (.error .intErr, o)
        else if clst = 0xFFFFFFFF then (.error .diskErr, o)
        else (.ok ⟨ofs, clst⟩, { o with fp := { o.fp with sclust := clst, clust := clst } })
    else some (.ok ⟨ofs, o.fp.sclust⟩, { o with fp := { o.fp with clust := o.fp.sclust } })

/-- The walk to an offset: `nsect`, or 0 if it lies on a sector boundary. -/
def seek (o : Opened) (ofs : Dword) : Option (Except FResult Dword × Opened) :=
  if ofs = 0 then some (.ok 0, { o with fp := { o.fp with fptr := 0 } })
  else
    match o.seekStart ofs with
    | none => none
    | some (.error res, o) => some (.error res, o)
    | some (.ok p, o) =>
        if p.clst = 0 then some (.ok 0, o)
        else
          match seekLoop (p.ofs.toNat + 1) o p with
          | none => none
          | some (.error res, o) => some (.error res, o)
          | some (.ok p, o) =>
              let o := o.advance p.ofs
              if p.ofs % 512 = 0 then some (.ok 0, o)
              else
                let nsect := o.volume.layout.clst2sect p.clst
                if nsect = 0 then some (.error .intErr, o) else some (.ok (nsect + p.ofs / 512), o)

/-- The file ends behind the file pointer at least. -/
def extend (o : Opened) : Opened :=
  if o.fp.objsize < o.fp.fptr then
    { o with fp := { o.fp with objsize := o.fp.fptr, modified := true } }
  else o

/-- `f_lseek` of a valid file object. -/
def fLseek (o : Opened) (ofs : Dword) : Option (FResult × Opened) :=
  if o.fp.err ≠ .ok then some (o.fp.err, o)
  else
    -- in read-only mode the offset is clipped with the file size
    let ofs := if o.fp.objsize < ofs ∧ o.fp.writable = false then o.fp.objsize else ofs
    (o.seek ofs).map fun
      | (.error res, o) => (res, o.abort res)
      | (.ok nsect, o) =>
          let o := o.extend
          if o.fp.fptr % 512 = 0 then (.ok, o)
          else
            match o.readSector nsect with
            | (.ok, o) => (.ok, o)
            | (res, o) => (res, o.abort res)

end Opened

end Senob.Fat
