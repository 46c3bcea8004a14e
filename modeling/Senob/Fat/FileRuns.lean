import Senob.Fat.FileSeeks

/-!
# Files as byte streams

Over any run of `f_read`, `f_write` and `f_lseek` on the files that are open, each file object is a
stream of bytes of its own: a read takes bytes from it, a write puts bytes over it, a seek moves the
place in it, and no call for one file is seen by another.
-/

namespace Senob.Fat

open Foundation
open Libk (FResult)

/-- A volume and the file objects that are open on it. -/
structure Handles (ι : Type*) where
  volume : Volume
  fil : ι → Fil

inductive FileCall (ι : Type*) where
  | read (i : ι) (btr : Dword)
  | write (i : ι) (wbuff : Nat → Byte) (btw : Dword)
  | seek (i : ι) (ofs : Dword)

/-- What a call returns, with what it copies to `rbuff`, or with `*bw`. -/
inductive Answer where
  | read (res : FResult) (bytes : List Byte)
  | write (res : FResult) (bw : Dword)
  | seek (res : FResult)

namespace Handles

variable {ι : Type*} [DecidableEq ι]

def put (s : Handles ι) (i : ι) (o : Opened) : Handles ι :=
  ⟨o.volume, Function.update s.fil i o.fp⟩

def step (s : Handles ι) : FileCall ι → Option (Handles ι × Answer)
  | .read i btr =>
      (Opened.fRead ⟨s.volume, s.fil i⟩ btr).map fun r =>
        (s.put i r.opened, .read r.res r.bytes)
  | .write i wbuff btw =>
      (Opened.fWrite ⟨s.volume, s.fil i⟩ wbuff btw).map fun w =>
        (s.put i w.opened, .write w.res w.bw)
  | .seek i ofs =>
      (Opened.fLseek ⟨s.volume, s.fil i⟩ ofs).map fun out => (s.put i out.2, .seek out.1)

def run (s : Handles ι) : List (FileCall ι) → Option (Handles ι × List Answer)
  | [] => some (s, [])
  | call :: calls =>
      (s.step call).bind fun out =>
        (run out.1 calls).map fun last => (last.1, out.2 :: last.2)

end Handles

/-- What a file object is for its user. -/
structure Stream where
  bytes : List Byte
  place : Nat
  readable : Bool
  writable : Bool

/-- Where a seek leads: behind the end of a stream in write mode only. -/
def Stream.target (s : Stream) (ofs : Dword) : Nat :=
  if s.writable then ofs.toNat else min ofs.toNat s.bytes.length

/-- The streams of all file objects, and whether the disk is full. -/
structure Store (ι : Type*) where
  stream : ι → Stream
  full : Prop

namespace Store

variable {ι : Type*} [DecidableEq ι]

/-- What a call may do. Only a full disk, or the largest size that a file can have, keeps it from
writing all of its bytes, and only a full disk from getting to an offset. The bytes that a seek
adds to a stream are any. -/
inductive Does (s : Store ι) : FileCall ι → Answer → Store ι → Prop
  | read {i : ι} {btr : Dword} {full : Prop} (mode : (s.stream i).readable = true) :
      s.Does (.read i btr)
        (.read .ok (((s.stream i).bytes.drop (s.stream i).place).take btr.toNat))
        ⟨Function.update s.stream i { s.stream i with
          place := min ((s.stream i).place + btr.toNat) (s.stream i).bytes.length }, full⟩
  | readDenied {i : ι} {btr : Dword} (mode : (s.stream i).readable = false) :
      s.Does (.read i btr) (.read .denied []) s
  | write {i : ι} {wbuff : Nat → Byte} {btw bw : Dword} {full : Prop}
      (mode : (s.stream i).writable = true) (bound : bw.toNat ≤ btw.toNat)
      (short : bw.toNat < btw.toNat → full ∨ (s.stream i).place + bw.toNat = 0xFFFFFFFF) :
      s.Does (.write i wbuff btw) (.write .ok bw)
        ⟨Function.update s.stream i { s.stream i with
          bytes := overwrite (s.stream i).bytes (s.stream i).place
            ((List.range bw.toNat).map wbuff)
          place := (s.stream i).place + bw.toNat }, full⟩
  | writeDenied {i : ι} {wbuff : Nat → Byte} {btw : Dword}
      (mode : (s.stream i).writable = false) :
      s.Does (.write i wbuff btw) (.write .denied 0) s
  | seek {i : ι} {ofs : Dword} {bytes : List Byte} {place : Nat} {full : Prop}
      (kept : (s.stream i).bytes <+: bytes)
      (size : bytes.length = max (s.stream i).bytes.length place)
      (bound : place ≤ (s.stream i).target ofs)
      (short : place < (s.stream i).target ofs → full) :
      s.Does (.seek i ofs) (.seek .ok)
        ⟨Function.update s.stream i { s.stream i with bytes := bytes, place := place }, full⟩

inductive Runs : Store ι → List (FileCall ι) → List Answer → Store ι → Prop
  | nil {s : Store ι} : Runs s [] [] s
  | cons {s t u : Store ι} {call : FileCall ι} {calls : List (FileCall ι)} {answer : Answer}
      {answers : List Answer} (first : s.Does call answer t) (rest : Runs t calls answers u) :
      Runs s (call :: calls) (answer :: answers) u

end Store

namespace Files

variable {ι : Type*} [DecidableEq ι] {f f' : Files ι} {i : ι}

def handles (f : Files ι) : Handles ι := ⟨f.volume, f.fil⟩

/-- The streams that the file objects stand for. -/
def store (f : Files ι) : Store ι where
  stream i := ⟨f.contents i, (f.fil i).fptr.toNat, (f.fil i).readable, (f.fil i).writable⟩
  full := f.volume.free = ∅

theorem handles_put (h : ∀ j, j ≠ i → f'.fil j = f.fil j) :
    f.handles.put i (f'.opened i) = f'.handles := by
  have hfil : Function.update f.fil i (f'.fil i) = f'.fil := by
    funext j
    by_cases hj : j = i
    · rw [hj, Function.update_self]
    · rw [Function.update_of_ne hj, h j hj]
  exact congrArg (Handles.mk f'.volume) hfil

theorem store_eq (h : ∀ j, j ≠ i → f'.fil j = f.fil j ∧ f'.contents j = f.contents j)
    {t : Stream} (hself : f'.store.stream i = t) :
    f'.store = ⟨Function.update f.store.stream i t, f'.volume.free = ∅⟩ := by
  have hstream : f'.store.stream = Function.update f.store.stream i t := by
    funext j
    by_cases hj : j = i
    · rw [hj, Function.update_self, hself]
    · obtain ⟨hfil, hcontents⟩ := h j hj
      rw [Function.update_of_ne hj]
      change Stream.mk (f'.contents j) _ _ _ = Stream.mk (f.contents j) _ _ _
      rw [hcontents, hfil]
  exact congrArg (Store.mk · _) hstream

/-- A read that the mode of the file allows takes the bytes from the place on. -/
theorem Sound.read_does (h : f.Sound) (i : ι) (btr : Dword) :
    ∃ (f' : Files ι) (answer : Answer),
      f.handles.step (.read i btr) = some (f'.handles, answer) ∧ f'.Sound ∧
        f.store.Does (.read i btr) answer f'.store := by
  cases hmode : (f.fil i).readable with
  | false =>
      have hread : (f.opened i).fRead btr = some ⟨.denied, [], f.opened i⟩ := by
        rw [Opened.fRead, opened_fp, if_neg (not_not_intro (h.placed i).err), if_pos hmode]
      refine ⟨f, .read .denied [], ?_, h, .readDenied hmode⟩
      change ((f.opened i).fRead btr).map _ = _
      rw [hread, Option.map_some, handles_put fun _ _ => rfl]
  | true =>
      obtain ⟨f', hread, hquiet, hsound, -, halike, hfptr⟩ := h.fRead_spec i hmode btr
      have hcontents := hquiet.contents h.toStored halike.objsize
      have hself : f'.store.stream i = { f.store.stream i with
          place := min ((f.fil i).fptr.toNat + btr.toNat) (f.contents i).length } := by
        change Stream.mk (f'.contents i) _ _ _ = Stream.mk (f.contents i) _ _ _
        rw [hcontents, hfptr, halike.readable, halike.writable, length_contents]
        rfl
      have hstore := store_eq (fun j hj => ⟨(hquiet.others j hj).1, hcontents j⟩) hself
      have hdoes : f.store.Does (.read i btr)
          (.read .ok (((f.contents i).drop (f.fil i).fptr.toNat).take btr.toNat)) f'.store := by
        rw [hstore]
        exact .read hmode
      refine ⟨f', _, ?_, hsound, hdoes⟩
      change ((f.opened i).fRead btr).map _ = _
      rw [hread, Option.map_some, handles_put fun j hj => (hquiet.others j hj).1]

/-- A write that the mode of the file allows puts its bytes over those of the stream. -/
theorem Sound.write_does (h : f.Sound) (i : ι) (wbuff : Nat → Byte) (btw : Dword) :
    ∃ (f' : Files ι) (answer : Answer),
      f.handles.step (.write i wbuff btw) = some (f'.handles, answer) ∧ f'.Sound ∧
        f.store.Does (.write i wbuff btw) answer f'.store := by
  cases hmode : (f.fil i).writable with
  | false =>
      have hwrite : (f.opened i).fWrite wbuff btw = some ⟨.denied, 0, f.opened i⟩ := by
        rw [Opened.fWrite, opened_fp, if_neg (not_not_intro (h.placed i).err), if_pos hmode]
      refine ⟨f, .write .denied 0, ?_, h, .writeDenied hmode⟩
      change ((f.opened i).fWrite wbuff btw).map _ = _
      rw [hwrite, Option.map_some, handles_put fun _ _ => rfl]
  | true =>
      obtain ⟨f', bw, hwrite, hwrote, -, hbound, hshort⟩ := h.fWrite_spec i hmode wbuff btw
      have hfptr := hwrote.fptr
      rw [List.length_map, List.length_range] at hfptr
      have hself : f'.store.stream i = { f.store.stream i with
          bytes := overwrite (f.contents i) (f.fil i).fptr.toNat ((List.range bw.toNat).map wbuff)
          place := (f.fil i).fptr.toNat + bw.toNat } := by
        change Stream.mk (f'.contents i) _ _ _ = Stream.mk _ _ _ _
        rw [hwrote.written, hfptr, hwrote.readable, hwrote.writable]
        rfl
      have hstore := store_eq hwrote.others hself
      have hdoes : f.store.Does (.write i wbuff btw) (.write .ok bw) f'.store := by
        rw [hstore]
        exact .write hmode hbound fun hless => (hshort hless).imp id And.left
      refine ⟨f', .write .ok bw, ?_, hwrote.sound, hdoes⟩
      change ((f.opened i).fWrite wbuff btw).map _ = _
      rw [hwrite, Option.map_some, handles_put fun j hj => (hwrote.others j hj).1]

/-- A seek moves the place, and in write mode it may make the stream longer. -/
theorem Sound.seek_does (h : f.Sound) (i : ι) (ofs : Dword) :
    ∃ (f' : Files ι) (answer : Answer),
      f.handles.step (.seek i ofs) = some (f'.handles, answer) ∧ f'.Sound ∧
        f.store.Does (.seek i ofs) answer f'.store := by
  obtain ⟨f', hseek, hsought⟩ := h.fLseek_spec i ofs
  have htarget : (f.store.stream i).target ofs = if (f.fil i).writable then ofs.toNat
      else min ofs.toNat (f.fil i).objsize.toNat := by
    rw [← length_contents]
    rfl
  have hself : f'.store.stream i = { f.store.stream i with
      bytes := f'.contents i, place := (f'.fil i).fptr.toNat } := by
    change Stream.mk _ _ _ _ = Stream.mk _ _ _ _
    rw [hsought.readable, hsought.writable]
    rfl
  have hstore := store_eq hsought.others hself
  have hdoes : f.store.Does (.seek i ofs) (.seek .ok) f'.store := by
    rw [hstore]
    refine .seek hsought.kept hsought.size ?_ ?_
    · rw [htarget]
      exact hsought.fptr_le
    · rw [htarget]
      exact hsought.full
  refine ⟨f', .seek .ok, ?_, hsought.sound, hdoes⟩
  change ((f.opened i).fLseek ofs).map _ = _
  rw [hseek, Option.map_some, handles_put fun j hj => (hsought.others j hj).1]

/-- A call does to the stream of its file what it says. -/
theorem Sound.fileStep_spec (h : f.Sound) (call : FileCall ι) :
    ∃ (f' : Files ι) (answer : Answer), f.handles.step call = some (f'.handles, answer) ∧ f'.Sound ∧
      f.store.Does call answer f'.store := by
  cases call with
  | read i btr => exact h.read_does i btr
  | write i wbuff btw => exact h.write_does i wbuff btw
  | seek i ofs => exact h.seek_does i ofs

/-- Any run of reads, writes and seeks on the open files is one on independent streams of bytes. -/
theorem Sound.fileRun_spec (h : f.Sound) (calls : List (FileCall ι)) :
    ∃ (f' : Files ι) (answers : List Answer),
      f.handles.run calls = some (f'.handles, answers) ∧ f'.Sound ∧
        f.store.Runs calls answers f'.store := by
  induction calls generalizing f with
  | nil => exact ⟨f, [], rfl, h, .nil⟩
  | cons call calls ih =>
      obtain ⟨f₁, answer, hstep, hsound₁, hdoes⟩ := h.fileStep_spec call
      obtain ⟨f₂, answers, hrun, hsound₂, hruns⟩ := ih hsound₁
      refine ⟨f₂, answer :: answers, ?_, hsound₂, .cons hdoes hruns⟩
      rw [Handles.run, hstep, Option.bind_some, hrun, Option.map_some]

theorem fileRun_spec_emptyFiles :
    ∃ (f' : Files Bool) (answers : List Answer),
      emptyFiles.handles.run [.write true (fun m => BitVec.ofNat 8 m) 600,
        .write false (fun _ => 7) 3, .seek true 0, .read true 5] = some (f'.handles, answers) ∧
      f'.Sound ∧ emptyFiles.store.Runs [.write true (fun m => BitVec.ofNat 8 m) 600,
        .write false (fun _ => 7) 3, .seek true 0, .read true 5] answers f'.store :=
  emptyFiles_sound.fileRun_spec _

end Files

end Senob.Fat
