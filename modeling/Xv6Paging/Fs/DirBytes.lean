import Xv6Paging.Fs.DirTree
import Xv6Paging.Fs.Names
import Xv6Paging.Fs.WriteLog

/-! # Directories as bytes (`dirlookup` and `dirlink` of `fs.c`)

    A directory is a file of 16-byte entries, which `dirlookup` and `dirlink` read and write
    through `readi` and `writei`, comparing and copying names with `strncmp` and `strncpy`.
    Decoded, its contents are the list of entries that `Dirs` works on, and the scans and
    the write are `findEntry`, `freeEntry` and `putEntry` there. On entries with distinct
    names, these are the operations of a finite map.

    `dirlink` gives back what it has found with `iput`, which takes the lock of that inode.
    The caller holds the lock of the directory: a name that stands for the directory itself
    makes it wait for itself.
-/

namespace Xv6Paging.DirBytes

open List Wp Blocks Function
open Dirs (Name Dirent dirsiz direntSize findEntry freeEntry putEntry namecmp strncpy Holds)

variable {src : Nat → UInt8} {fuel inum k : Nat} {de : List UInt8} {s' : State}

/-! ## Code -/

/-- `de.inum`, an `ushort`. -/
def inumOf (de : List UInt8) : Nat := (de.getD 0 0).toNat + 256 * (de.getD 1 0).toNat

/-- The loop of `dirlookup`: the inode number and the offset of a name. -/
def dirscan (sb : Super) (dp : Nat) (name : List UInt8) : Nat → Nat → B (Option (Nat × Nat))
  | 0, _ => throw .diverge
  | fuel + 1, off => do
    let s ← get
    if off < (s.core dp).din.size then
      match ← readi sb dp off direntSize with
      | none => throw (.panic "dirlookup read")
      | some de =>
        if de.length ≠ direntSize then
          throw (.panic "dirlookup read")
        else if inumOf de = 0 then
          dirscan sb dp name fuel (off + direntSize)
        else
          match namecmp name (de.drop 2) with
          | none => throw .wild
          | some z =>
            if z = 0 then
              pure (some (inumOf de, off))
            else
              dirscan sb dp name fuel (off + direntSize)
    else
      pure none

def dirlookup (sb : Super) (dp : Nat) (name : List UInt8) : B (Option (Nat × Nat)) := do
  let s ← get
  if (s.core dp).din.type ≠ .dir then
    throw (.panic "dirlookup not DIR")
  else
    match ← dirscan sb dp name ((s.core dp).din.size + 1) 0 with
    | none => pure none
    | some (inum, off) =>
      iget sb inum
      pure (some (inum, off))

/-- The loop of `dirlink`: the offset of a free entry, or the end. -/
def freescan (sb : Super) (dp : Nat) : Nat → Nat → B Nat
  | 0, _ => throw .diverge
  | fuel + 1, off => do
    let s ← get
    if off < (s.core dp).din.size then
      match ← readi sb dp off direntSize with
      | none => throw (.panic "dirlink read")
      | some de =>
        if de.length ≠ direntSize then
          throw (.panic "dirlink read")
        else if inumOf de = 0 then
          pure off
        else
          freescan sb dp fuel (off + direntSize)
    else
      pure off

/-- `iput` by a caller that holds the lock of `dp`. -/
def iputUnder (dp i : Nat) : B Unit := if i = dp then throw .diverge else iput i

/-- The bytes of an entry. -/
def encode (inum : Nat) (field : List UInt8) : List UInt8 :=
  UInt8.ofNat inum :: UInt8.ofNat (inum / 256) :: field

def writeDirent (sb : Super) (dp : Nat) (de : List UInt8) (off : Nat) (msg : String) : B Unit := do
  match ← writei sb dp (fun k => de.getD k 0) off direntSize with
  | none => throw (.panic msg)
  | some n => if n ≠ direntSize then throw (.panic msg) else pure ()

/-- `false` is `-1`. -/
def dirlink (sb : Super) (dp : Nat) (name : List UInt8) (inum : Nat) : B Bool := do
  match ← dirlookup sb dp name with
  | some (i, _) =>
    iputUnder dp i
    pure false
  | none =>
    let s ← get
    let off ← freescan sb dp ((s.core dp).din.size + 1) 0
    match strncpy name dirsiz with
    | none => throw .wild
    | some field =>
      writeDirent sb dp (encode inum field) off "dirlink"
      pure true

/-- How `sys_unlink` erases the entry at an offset. -/
def eraseEntry (sb : Super) (dp off : Nat) : B Unit :=
  writeDirent sb dp (List.replicate direntSize 0) off "unlink: writei"

/-! ## Entries -/

def decode (de : List UInt8) : Dirent := ⟨inumOf de, (de.drop 2).takeWhile (· != 0)⟩

/-- The bytes of entry `k`. -/
def direntAt (bs : List UInt8) (k : Nat) : List UInt8 := (bs.drop (direntSize * k)).take direntSize

/-- The entries of a directory with these contents. -/
def dirents (bs : List UInt8) : List Dirent :=
  (List.range (bs.length / direntSize)).map fun k => decode (direntAt bs k)

section Entries

variable {bs : List UInt8} {n : Nat}

theorem length_direntAt (hlen : bs.length = direntSize * n) (hk : k < n) : (direntAt bs k).length = direntSize := by
  unfold direntSize at *
  simp only [direntAt, direntSize, length_take, length_drop, hlen]
  omega

theorem length_dirents (hlen : bs.length = direntSize * n) : (dirents bs).length = n := by
  rw [dirents, length_map, length_range, hlen, Nat.mul_div_cancel_left _ (by decide)]

theorem getElem?_dirents (hlen : bs.length = direntSize * n) :
    (dirents bs)[k]? = if k < n then some (decode (direntAt bs k)) else none := by
  rw [dirents, getElem?_map, hlen, Nat.mul_div_cancel_left _ (by decide)]
  by_cases hk : k < n
  · rw [getElem?_range hk, if_pos hk]
    rfl
  · rw [getElem?_eq_none (by simpa using hk), if_neg hk]
    rfl

theorem getElem?_direntAt : (direntAt bs k)[x]? = if x < direntSize then bs[direntSize * k + x]? else none := by
  rw [direntAt, getElem?_take, getElem?_drop]

theorem dirents_overwrite (hlen : bs.length = direntSize * n) (hk : k ≤ n) :
    dirents (overwrite bs src (direntSize * k) direntSize) =
      putEntry (dirents bs) k (decode ((List.range direntSize).map src)) := by
  have hget : ∀ x, (overwrite bs src (direntSize * k) direntSize)[x]? = _ := fun x =>
    getElem?_overwrite (x := x) (by unfold direntSize at *; omega)
  have hlen' : (overwrite bs src (direntSize * k) direntSize).length = direntSize * max n (k + 1) := by
    unfold direntSize at *
    simp only [overwrite, length_append, length_take, length_map, length_range,
      length_drop, hlen]
    omega
  have hat : ∀ j, direntAt (overwrite bs src (direntSize * k) direntSize) j =
      if j = k then (List.range direntSize).map src else direntAt bs j := by
    intro j
    refine ext_getElem? fun x => ?_
    rw [getElem?_direntAt, hget]
    by_cases hx : x < direntSize
    · rw [if_pos hx]
      by_cases hj : j = k
      · subst hj
        rw [if_pos ⟨by omega, by omega⟩, if_pos rfl, getElem?_map, getElem?_range hx,
          Nat.add_sub_cancel_left]
        rfl
      · rw [if_neg, if_neg hj, getElem?_direntAt, if_pos hx]
        unfold direntSize at *
        omega
    · rw [if_neg hx]
      by_cases hj : j = k
      · rw [if_pos hj, getElem?_eq_none (by simpa using hx)]
      · rw [if_neg hj, getElem?_direntAt, if_neg hx]
  refine ext_getElem? fun j => ?_
  rw [getElem?_dirents hlen', hat]
  unfold putEntry
  rw [length_dirents hlen]
  by_cases hlt : k < n
  · rw [if_pos hlt, getElem?_set, length_dirents hlen, getElem?_dirents hlen]
    by_cases hj : k = j
    · subst hj
      rw [if_pos rfl, if_pos hlt, if_pos (by omega), if_pos rfl]
    · rw [if_neg hj, if_neg (Ne.symm hj), Nat.max_eq_left (by omega)]
  · obtain rfl : k = n := by omega
    rw [if_neg hlt, Nat.max_eq_right (by omega)]
    by_cases hj : j < k
    · rw [getElem?_append_left (by rwa [length_dirents hlen]), getElem?_dirents hlen, if_pos hj,
        if_pos (by omega), if_neg (by omega)]
    · rw [getElem?_append_right (by rw [length_dirents hlen]; omega), length_dirents hlen]
      by_cases hj' : j = k
      · subst hj'
        rw [if_pos (by omega), if_pos rfl, Nat.sub_self]
        rfl
      · rw [if_neg (by omega), getElem?_eq_none (by simp; omega)]

theorem decode_encode {name : List UInt8} (hi : inum < 2 ^ 16) (hnz : ∀ a ∈ name, a ≠ 0) :
    decode (encode inum (name.take dirsiz ++ List.replicate (dirsiz - name.length) 0)) =
      ⟨inum, name.take dirsiz⟩ := by
  have hinum : inumOf (encode inum (name.take dirsiz ++ List.replicate (dirsiz - name.length) 0)) = inum := by
    simp only [inumOf, encode, getD_cons_zero, getD_cons_succ, UInt8.toNat_ofNat']
    omega
  have hname : ∀ k, (name.take dirsiz ++ List.replicate k 0).takeWhile (· != 0) = name.take dirsiz := by
    intro k
    rw [takeWhile_append_of_pos fun a ha => by simpa using hnz a (mem_of_mem_take ha)]
    cases k with
    | zero => simp
    | succ k => simp [replicate_succ]
  show Dirent.mk _ _ = _
  rw [hinum]
  exact congrArg _ (hname _)

theorem map_getD (hlen : de.length = direntSize) :
    ((List.range direntSize).map fun k => de.getD k 0) = de := by
  refine ext_getElem? fun x => ?_
  rw [getElem?_map]
  by_cases hx : x < direntSize
  · rw [getElem?_range hx, Option.map_some, getD_eq_getElem?_getD,
      getElem?_eq_getElem (by omega), Option.getD_some]
  · rw [getElem?_eq_none (by simpa using hx), getElem?_eq_none (by omega)]
    rfl

end Entries

/-! ## Entries as a map -/

/-- The entries in use. -/
def live (es : List Dirent) : List Dirent := es.filter fun e => e.inum != 0

/-- No two entries in use have the same name. -/
def Distinct (es : List Dirent) : Prop := ((live es).map Dirent.name).Nodup

/-- The inode number of a name. -/
def find (es : List Dirent) (name : Name) : Option Nat := (findEntry name 0 es).map Prod.fst

section Map

variable {es : List Dirent} {name other : Name} {e : Dirent} {i off : Nat}

theorem mem_live : e ∈ live es ↔ e ∈ es ∧ e.inum ≠ 0 := by
  simp [live]

theorem findEntry_eq_none : findEntry name off es = none ↔ ∀ e ∈ live es, e.name ≠ name := by
  induction es generalizing off with
  | nil => simp [findEntry, live]
  | cons a es ih =>
    unfold findEntry
    by_cases ha : a.inum = 0
    · rw [if_pos ha, ih]
      simp [live, ha]
    · by_cases hname : a.name = name
      · simp [ha, hname, live]
      · rw [if_neg ha, if_neg hname, ih]
        simp [live, ha, hname]

theorem find_eq_none : find es name = none ↔ ∀ e ∈ live es, e.name ≠ name := by
  rw [find, Option.map_eq_none_iff, findEntry_eq_none]

/-- With distinct names, what is found is what is there. -/
theorem find_eq_some (h : Distinct es) : find es name = some i ↔ (⟨i, name⟩ : Dirent) ∈ live es := by
  constructor
  · intro hf
    obtain ⟨⟨j, k⟩, hj, rfl⟩ := Option.map_eq_some_iff.mp hf
    exact mem_live.mpr (Dirs.findEntry_mem hj)
  · intro hmem
    cases hf : find es name with
    | none => exact absurd rfl (find_eq_none.mp hf _ hmem)
    | some j =>
      obtain ⟨⟨j', k⟩, hj, rfl⟩ := Option.map_eq_some_iff.mp hf
      have hmem' : (⟨j', name⟩ : Dirent) ∈ live es := mem_live.mpr (Dirs.findEntry_mem hj)
      have := inj_on_of_nodup_map h hmem' hmem rfl
      cases this
      rfl

/-- Where two directories have the same entries of a name, they agree on it. -/
theorem find_congr {es' : List Dirent} (h : Distinct es) (h' : Distinct es')
    (hsame : ∀ i, (⟨i, name⟩ : Dirent) ∈ live es' ↔ (⟨i, name⟩ : Dirent) ∈ live es) :
    find es' name = find es name := by
  refine Option.ext fun i => ?_
  rw [find_eq_some h', find_eq_some h, hsame]

theorem live_putEntry (he : e.inum ≠ 0) : (live (putEntry es (freeEntry es) e)).Perm (e :: live es) := by
  induction es with
  | nil =>
    have hput : putEntry [] (freeEntry []) e = [e] := rfl
    rw [hput]
    simp [live, he]
  | cons a es ih =>
    by_cases ha : a.inum = 0
    · have hfirst : freeEntry (a :: es) = 0 := by simp [freeEntry, findIdx_cons, ha]
      rw [hfirst, putEntry, if_pos (by simp), set_cons_zero]
      simp [live, ha, he]
    · rw [Dirs.freeEntry_cons ha, Dirs.putEntry_cons]
      have hcons : ∀ l : List Dirent, live (a :: l) = a :: live l := by
        intro l
        simp [live, ha]
      rw [hcons, hcons]
      exact (ih.cons a).trans (List.Perm.swap _ _ _)

section Put

variable (h : Distinct es) (he : e.inum ≠ 0) (hnone : find es e.name = none)

include h he hnone

theorem Distinct.put : Distinct (putEntry es (freeEntry es) e) := by
  unfold Distinct
  rw [((live_putEntry he).map Dirent.name).nodup_iff, map_cons, nodup_cons]
  refine ⟨?_, h⟩
  rw [mem_map]
  rintro ⟨x, hx, hname⟩
  exact find_eq_none.mp hnone x hx hname

theorem find_put : find (putEntry es (freeEntry es) e) e.name = some e.inum := by
  rw [find_eq_some (h.put he hnone), (live_putEntry he).mem_iff]
  exact mem_cons_self

theorem find_put_ne (hne : other ≠ e.name) : find (putEntry es (freeEntry es) e) other = find es other := by
  refine find_congr h (h.put he hnone) fun i => ?_
  rw [(live_putEntry he).mem_iff, mem_cons]
  refine or_iff_right fun heq => hne ?_
  rw [← heq]

end Put

theorem live_erase (hk : es[k]? = some e) :
    ∃ l1 l2, live es = l1 ++ live [e] ++ l2 ∧ live (es.set k ⟨0, []⟩) = l1 ++ l2 := by
  obtain ⟨hlt, hget⟩ := List.getElem?_eq_some_iff.mp hk
  refine ⟨live (es.take k), live (es.drop (k + 1)), ?_, ?_⟩
  · rw [live, live, live, live, ← filter_append, ← filter_append]
    congr 1
    rw [← hget, append_assoc, singleton_append, getElem_cons_drop, take_append_drop]
  · rw [set_eq_take_append_cons_drop, if_pos hlt, live, filter_append, filter_cons_of_neg (by simp)]
    rfl

theorem Distinct.erase (h : Distinct es) (hk : es[k]? = some e) : Distinct (es.set k ⟨0, []⟩) := by
  obtain ⟨l1, l2, hl, hl'⟩ := live_erase hk
  unfold Distinct at *
  rw [hl']
  refine List.Nodup.sublist (List.Sublist.map _ ?_) h
  rw [hl]
  exact List.Sublist.append (sublist_append_left _ _) (List.Sublist.refl _)

theorem find_erase_ne (h : Distinct es) (hk : es[k]? = some e) (hne : other ≠ e.name) :
    find (es.set k ⟨0, []⟩) other = find es other := by
  refine find_congr h (h.erase hk) fun i => ?_
  obtain ⟨l1, l2, hl, hl'⟩ := live_erase hk
  have hself : (⟨i, other⟩ : Dirent) ∉ live [e] := by
    intro hmem
    have := mem_singleton.mp (mem_live.mp hmem).1
    exact hne (by rw [← this])
  rw [hl, hl', mem_append, mem_append, mem_append]
  simp [hself]

theorem find_erase (h : Distinct es) (hk : es[k]? = some e) (he : e.inum ≠ 0) :
    find (es.set k ⟨0, []⟩) e.name = none := by
  obtain ⟨l1, l2, hl, hl'⟩ := live_erase hk
  have hone : live [e] = [e] := by simp [live, he]
  rw [find_eq_none, hl']
  intro x hx hname
  have hmid : (l1 ++ e :: l2).Perm (e :: (l1 ++ l2)) := perm_middle
  unfold Distinct at h
  rw [hl, hone, append_assoc, singleton_append, (hmid.map Dirent.name).nodup_iff,
    map_cons, nodup_cons] at h
  refine h.1 ?_
  rw [← hname]
  exact mem_map_of_mem hx

end Map

/-! ## The scans -/

/-- A directory that is locked, with whole entries. -/
structure IsDir (sb : Super) (dp : Nat) (s : State) : Prop where
  inv : Inv sb s
  inside : dp < sb.ninodes
  valid : (s.core dp).valid = true
  dir : (s.inode dp).type = .dir
  whole : (s.inode dp).size % direntSize = 0

/-- The entries of a directory. -/
def entries (s : State) (dp : Nat) : List Dirent := dirents (s.contents dp)

section Scan

variable {sb : Super} {s : State} {dp : Nat} {name : List UInt8} {nm : Name}

section Scan

variable (h : IsDir sb dp s)

include h

theorem IsDir.length_contents : (s.contents dp).length = direntSize * ((s.inode dp).size / direntSize) := by
  rw [State.contents, length_map, length_range]
  have := h.whole
  unfold direntSize at *
  omega

theorem IsDir.length_entries : (entries s dp).length = (s.inode dp).size / direntSize :=
  length_dirents h.length_contents

theorem IsDir.size_eq : (s.core dp).din.size = direntSize * (entries s dp).length := by
  have hw := h.whole
  rw [h.length_entries, inode_of_valid h.valid] at *
  unfold direntSize at *
  omega

/-- Every entry is read whole. -/
theorem IsDir.readi (hk : k < (entries s dp).length) :
    readi sb dp (direntSize * k) direntSize s = .ok (some (direntAt (s.contents dp) k)) s := by
  have hsize := h.size_eq
  have hsmall := h.inv.small dp h.inside
  rw [← h.inv.inode_eq dp, inode_of_valid h.valid] at hsmall
  have hmax : maxfile * bsize = 71680 := rfl
  have hdev : (s.inode dp).type ≠ .dev := by
    rw [h.dir]
    exact nofun
  rw [readi_eq h.inv h.valid h.inside hdev, if_neg]
  · rfl
  · rw [inode_of_valid h.valid]
    unfold direntSize at *
    omega

theorem IsDir.length_direntAt (hk : k < (entries s dp).length) : (direntAt (s.contents dp) k).length = direntSize :=
  DirBytes.length_direntAt h.length_contents (h.length_entries ▸ hk)

theorem IsDir.drop_entries (hk : k < (entries s dp).length) :
    (entries s dp).drop k = decode (direntAt (s.contents dp) k) :: (entries s dp).drop (k + 1) := by
  have hget : (entries s dp)[k]? = some (decode (direntAt (s.contents dp) k)) := by
    rw [entries, getElem?_dirents h.length_contents, if_pos (h.length_entries ▸ hk)]
  obtain ⟨hlt, hget⟩ := List.getElem?_eq_some_iff.mp hget
  rw [drop_eq_getElem_cons hlt, hget]

/-- `dirscan` is `findEntry`; offsets are counted in bytes. -/
theorem dirscan_eq (hname : Holds dirsiz name nm)
    (hk : k ≤ (entries s dp).length) (hfuel : (entries s dp).length - k < fuel) :
    dirscan sb dp name fuel (direntSize * k) s =
      .ok ((findEntry nm k ((entries s dp).drop k)).map fun x => (x.1, direntSize * x.2)) s := by
  induction fuel generalizing k with
  | zero => omega
  | succ fuel ih =>
    rw [dirscan, bind_get, h.size_eq]
    by_cases hlt : k < (entries s dp).length
    · have hnext : direntSize * k + direntSize = direntSize * (k + 1) := rfl
      have hrec := ih (k := k + 1) (by omega) (by omega)
      rw [if_pos (Nat.mul_lt_mul_of_pos_left hlt (by decide)), bind_ok (h.readi hlt), h.drop_entries hlt,
        findEntry]
      simp only [h.length_direntAt hlt, hnext]
      generalize hde : direntAt (s.contents dp) k = de
      have hlen : (de.drop 2).length = dirsiz := by
        rw [length_drop, ← hde, h.length_direntAt hlt]
        rfl
      have hfield := Dirs.holds_field (de.drop 2)
      rw [hlen] at hfield
      obtain ⟨z, hz, hiff⟩ := Dirs.strncmp_holds hname hfield
      have hz' : namecmp name (de.drop 2) = some z := hz
      have hdec : (decode de).inum = inumOf de ∧ (decode de).name = (de.drop 2).takeWhile (· != 0) := ⟨rfl, rfl⟩
      rw [hdec.1, hdec.2]
      simp only [ne_eq, not_true_eq_false, if_false, hz']
      by_cases hin : inumOf de = 0
      · rw [if_pos hin, if_pos hin]
        exact hrec
      · rw [if_neg hin, if_neg hin]
        by_cases hsame : z = 0
        · rw [if_pos hsame, if_pos (hiff.mp hsame).symm]
          rfl
        · rw [if_neg hsame, if_neg fun heq => hsame (hiff.mpr heq.symm)]
          exact hrec
    · rw [if_neg fun hlt' => hlt (Nat.lt_of_mul_lt_mul_left hlt'), drop_eq_nil_of_le (by omega)]
      rfl

theorem freescan_eq (hk : k ≤ (entries s dp).length) (hfuel : (entries s dp).length - k < fuel) :
    freescan sb dp fuel (direntSize * k) s = .ok (direntSize * (k + freeEntry ((entries s dp).drop k))) s := by
  induction fuel generalizing k with
  | zero => omega
  | succ fuel ih =>
    rw [freescan, bind_get, h.size_eq]
    by_cases hlt : k < (entries s dp).length
    · have hnext : direntSize * k + direntSize = direntSize * (k + 1) := rfl
      rw [if_pos (Nat.mul_lt_mul_of_pos_left hlt (by decide)), bind_ok (h.readi hlt), h.drop_entries hlt]
      simp only [h.length_direntAt hlt, hnext, ne_eq, not_true_eq_false, if_false]
      generalize direntAt (s.contents dp) k = de
      by_cases hin : inumOf de = 0
      · have hfree : freeEntry (decode de :: (entries s dp).drop (k + 1)) = 0 := by
          simp [freeEntry, findIdx_cons, decode, hin]
        rw [if_pos hin, hfree]
        rfl
      · rw [if_neg hin, ih (by omega) (by omega), Dirs.freeEntry_cons (by exact hin)]
        congr 2
        omega
    · rw [if_neg fun hlt' => hlt (Nat.lt_of_mul_lt_mul_left hlt'), drop_eq_nil_of_le (by omega)]
      rfl

end Scan

end Scan

/-! ## Blocks for an entry -/

/-- Free blocks of the disk. -/
def freeBlocks (sb : Super) (s : State) : Nat := (List.range sb.size).countP fun b => !s.bitmap b

/-- Blocks that have to be allocated for block `bn` of an inode. -/
def newBlocks (s : State) (i bn : Nat) : Nat :=
  WriteLog.fresh s i bn + if bn < ndirect then 0 else WriteLog.freshIndirect s i

section Space

variable {sb : Super} {s : State} {i b bn : Nat}

theorem freeBlocks_setBit (hlt : b < sb.size) (hclear : s.bitmap b = false) :
    freeBlocks sb (s.setBit b true) + 1 = freeBlocks sb s := by
  have hmem : b ∈ (List.range sb.size).filter fun b => !s.bitmap b := by
    simp [hlt, hclear]
  have hfilter : ((List.range sb.size).filter fun c => !(s.setBit b true).bitmap c) =
      ((List.range sb.size).filter fun c => !s.bitmap c).erase b := by
    rw [(nodup_range.filter _).erase_eq_filter, filter_filter]
    refine filter_congr fun c _ => ?_
    by_cases hc : c = b
    · subst hc
      simp
    · simp [hc]
  rw [freeBlocks, freeBlocks, countP_eq_length_filter, countP_eq_length_filter, hfilter,
    length_erase_of_mem hmem]
  have := length_pos_of_mem hmem
  omega

theorem freeBlocks_congr (h : s'.bitmap = s.bitmap) : freeBlocks sb s' = freeBlocks sb s := by
  unfold freeBlocks
  rw [h]

theorem balloc_space : wp (balloc sb) (fun b s' => freeBlocks sb s' + 1 = freeBlocks sb s ∧
    s'.blocks b = fun _ => 0) (fun _ _ => freeBlocks sb s < 1) s := by
  simp only [balloc, wp_bind, wp_get]
  cases hfind : (List.range sb.size).find? fun b => !s.bitmap b with
  | none =>
    rw [wp_throw, Nat.lt_one_iff]
    exact countP_eq_zero.mpr (find?_eq_none.mp hfind)
  | some b =>
    simp only [wp_bind, wp_set, wp_pure]
    have hclear : s.bitmap b = false := by simpa using find?_some hfind
    have hlt : b < sb.size := mem_range.mp (mem_of_find?_eq_some hfind)
    refine ⟨?_, update_self ..⟩
    rw [← freeBlocks_setBit hlt hclear]
    exact congrArg (· + 1) (freeBlocks_congr rfl)

theorem addrBlock_space : wp (addrBlock sb i k)
    (fun b s' => freeBlocks sb s' + (if (s.core i).din.addrs k = 0 then 1 else 0) = freeBlocks sb s ∧
      ((s.core i).din.addrs k = 0 → s'.blocks b = fun _ => 0) ∧
      ((s.core i).din.addrs k ≠ 0 → b = (s.core i).din.addrs k ∧ s' = s))
    (fun _ _ => freeBlocks sb s < if (s.core i).din.addrs k = 0 then 1 else 0) s := by
  simp only [addrBlock, wp_bind, wp_get, wp_ite, wp_pure, wp_modify]
  refine ⟨fun hz => ?_, fun hnz => ?_⟩
  · simp only [if_pos hz]
    refine wp_post balloc_space ?_
    rintro b s1 ⟨hfree, hblk⟩
    exact ⟨hfree, fun _ => hblk, fun hnz => absurd hz hnz⟩
  · rw [if_neg hnz]
    exact ⟨rfl, fun hz => absurd hz hnz, fun _ => ⟨trivial, trivial⟩⟩

theorem entryBlock_space {ind j : Nat} : wp (entryBlock sb ind j)
    (fun _ s' => freeBlocks sb s' + (if Words.get (s.blocks ind) j = 0 then 1 else 0) = freeBlocks sb s)
    (fun _ _ => freeBlocks sb s < if Words.get (s.blocks ind) j = 0 then 1 else 0) s := by
  simp only [entryBlock, wp_bind, wp_get, wp_ite, wp_pure, wp_modify]
  refine ⟨fun hz => ?_, fun hnz => ?_⟩
  · simp only [if_pos hz]
    exact wp_post balloc_space fun b s1 h => h.1
  · rw [if_neg hnz]
    rfl

/-- `bmap` stops where the blocks that it needs are not there. -/
theorem bmap_space (hv : (s.core i).valid = true) (hbn : bn < maxfile) :
    wp (bmap sb i bn) (fun _ _ => newBlocks s i bn ≤ freeBlocks sb s)
      (fun _ _ => ¬ newBlocks s i bn ≤ freeBlocks sb s) s := by
  have hmax : maxfile = ndirect + nindirect := rfl
  have hzero : ∀ b, nonzero b = none ↔ b = 0 := by
    intro b
    unfold nonzero
    split <;> simp_all
  unfold newBlocks WriteLog.fresh WriteLog.freshIndirect fileSlot
  simp only [bmap, wp_ite]
  refine ⟨fun hd => ?_, fun hd => ⟨fun hj => ?_, fun hj => absurd hbn (by omega)⟩⟩
  · simp only [if_pos hd, State.target, inode_of_valid hv, hzero, Nat.add_zero]
    refine wp_mono addrBlock_space ?_ ?_
    · rintro b s1 ⟨hfree, _⟩
      omega
    · intro _ _ hlt
      omega
  · simp only [if_neg hd, State.target, inode_of_valid hv, hzero]
    rw [wp_bind]
    refine wp_mono addrBlock_space ?_ ?_
    · rintro ind s1 ⟨hfree, hnew, hold⟩
      have hword : Words.get (s1.blocks ind) (bn - ndirect) = 0 ↔
          s.word ((s.core i).din.addrs ndirect) (bn - ndirect) = none := by
        unfold State.word
        by_cases hz : (s.core i).din.addrs ndirect = 0
        · rw [hnew hz, if_pos hz]
          exact ⟨fun _ => rfl, fun _ => Words.get_zero _⟩
        · obtain ⟨rfl, rfl⟩ := hold hz
          rw [if_neg hz, hzero]
      refine wp_mono entryBlock_space ?_ ?_
      all_goals
        intro _ _ hfree'
        simp only [hword] at hfree'
        omega
    · intro _ _ hlt
      omega

/-- An entry lies in one block: `writei` stops where `bmap` does. -/
theorem writeDirent_space (hv : (s.core i).valid = true)
    (hfit : direntSize * k + direntSize ≤ maxfile * bsize) (hdev : (s.inode i).type ≠ .dev)
    (hsize : direntSize * k ≤ (s.inode i).size) :
    wp (writei sb i src (direntSize * k) direntSize)
      (fun _ _ => newBlocks s i (direntSize * k / bsize) ≤ freeBlocks sb s)
      (fun _ _ => ¬ newBlocks s i (direntSize * k / bsize) ≤ freeBlocks sb s) s := by
  have hb : bsize = 512 := rfl
  have hd : direntSize = 16 := rfl
  have hk : 16 * k + 16 ≤ 71680 := hfit
  rw [inode_of_valid hv] at hdev hsize
  have hk' : 16 * k ≤ (s.core i).din.size := hsize
  have hone : min 16 (bsize - direntSize * k % bsize) = 16 := by
    rw [hb, hd]
    omega
  rw [writei, wp_bind, wp_get, if_neg hdev, if_neg (by rw [hd]; omega), if_neg (by omega), wp_bind]
  rw [show writeBlocks sb i direntSize src (direntSize * k) direntSize =
    writeBlocks sb i (15 + 1) src (direntSize * k) 16 from rfl, writeBlocks, if_neg (by decide), wp_bind]
  refine wp_mono (bmap_space hv (block_lt (by omega))) ?_ fun _ _ h => h
  intro b s1 hspace
  rw [wp_bind, wp_modify, hone, Nat.sub_self, writeBlocks, if_pos rfl, wp_pure, wp_ite]
  refine ⟨fun _ => ?_, fun _ => ?_⟩
  · simp only [wp_bind, wp_modify, iupdate, wp_pure]
    exact hspace
  · rw [wp_pure]
    exact hspace

theorem newBlocks_of_target (h : s.target (fileSlot i bn) ≠ none) : newBlocks s i bn = 0 := by
  unfold newBlocks WriteLog.fresh WriteLog.freshIndirect
  rw [if_neg h]
  split
  · rfl
  · rename_i hd
    rw [if_neg]
    intro hnone
    refine h ?_
    have hz : (s.inode i).addrs ndirect = 0 := by
      by_contra hnz
      rw [State.target, nonzero, if_neg hnz] at hnone
      cases hnone
    simp [fileSlot, hd, State.target, State.word, hz]

end Space

/-! ## Writing an entry, giving an inode back -/

section Steps

variable {sb : Super} {s : State} {dp i : Nat}

theorem wp_writeDirent {msg : String} (h : IsDir sb dp s) (hde : de.length = direntSize)
    (hk : k ≤ (entries s dp).length) (hfit : direntSize * k + direntSize ≤ maxfile * bsize) :
    wp (writeDirent sb dp de (direntSize * k) msg)
      (fun _ s' => newBlocks s dp (direntSize * k / bsize) ≤ freeBlocks sb s ∧ IsDir sb dp s' ∧
        entries s' dp = putEntry (entries s dp) k (decode de))
      (fun _ _ => ¬ newBlocks s dp (direntSize * k / bsize) ≤ freeBlocks sb s) s := by
  have hdev : (s.inode dp).type ≠ .dev := by
    rw [h.dir]
    exact nofun
  have hsize : direntSize * k ≤ (s.inode dp).size := by
    rw [inode_of_valid h.valid, h.size_eq]
    exact Nat.mul_le_mul_left _ hk
  simp only [writeDirent, wp_bind]
  refine wp_post (wp_and (writeDirent_space h.valid hfit hdev hsize)
    (wp_and (writei_written h.inv h.valid h.inside hdev hsize hfit) (writei_inv h.inv h.valid h.inside))) ?_
  rintro r s' ⟨hspace, ⟨rfl, hw⟩, hinv⟩
  simp only [ne_eq, not_true_eq_false, if_false, wp_pure]
  refine ⟨hspace, ⟨hinv, h.inside, hw.valid, hw.type.trans h.dir, ?_⟩, ?_⟩
  · have := h.whole
    rw [hw.size]
    unfold direntSize at *
    omega
  · rw [entries, hw.contents h.inv h.inside hsize hfit,
      dirents_overwrite h.length_contents (h.length_entries ▸ hk), map_getD hde]
    rfl

theorem contents_recache (h : Inv sb s) (h' : Inv sb s') (hdin : s'.dinode = s.dinode)
    (hblk : s'.blocks = s.blocks) : s'.contents = s.contents := by
  have hin : s'.inode = s.inode := by
    funext r
    rw [h'.inode_eq, h.inode_eq, hdin]
  have ht : s'.target = s.target := funext fun u => target_congr (by rw [hin]) hblk
  funext r
  rw [State.contents, State.contents, hin, byte_congr ht hblk]

/-- The inode is in the cache, or there is room for it. -/
def InCache (sb : Super) (s : State) (i : Nat) : Prop := 0 < (s.core i).ref ∨ s.inUse sb < ninode

/-- What `dirlink` does with an inode that it has found. -/
theorem wp_giveBack (h : IsDir sb dp s) :
    wp (do
        iget sb i
        iputUnder dp i)
      (fun _ s' => (i ≠ dp ∧ InCache sb s i) ∧ IsDir sb dp s' ∧ s'.contents = s.contents)
      (fun _ _ => ¬ (i ≠ dp ∧ InCache sb s i)) s := by
  have hafter : ∀ ip : Incore, (ip.valid = true → ip.din = (s.core i).din ∧ (s.core i).valid = true) → i ≠ dp →
      IsDir sb dp (s.setCore i ip) ∧ (s.setCore i ip).contents = s.contents := by
    intro ip hip hne
    have hinv : Inv sb (s.setCore i ip) := h.inv.setCore fun hv => by
      rw [(hip hv).1]
      exact h.inv.synced i (hip hv).2
    have hcore : (s.setCore i ip).core dp = s.core dp := update_of_ne (Ne.symm hne) _ _
    have hinode : (s.setCore i ip).inode dp = s.inode dp := by
      rw [State.inode, State.inode, hcore]
      rfl
    exact ⟨⟨hinv, h.inside, hcore ▸ h.valid, hinode ▸ h.dir, hinode ▸ h.whole⟩,
      contents_recache h.inv hinv rfl rfl⟩
  have hset : ∀ ip ip' : Incore, (s.setCore i ip).setCore i ip' = s.setCore i ip' := by
    intro ip ip'
    simp [State.setCore]
  unfold iputUnder InCache
  simp only [iget, wp_bind, wp_get, wp_ite, wp_set, wp_throw]
  refine ⟨fun hpos => ⟨fun hself hand => hand.1 hself, fun hne => ?_⟩, fun hzero => ⟨fun hfull hand => ?_, fun hroom =>
    ⟨fun hself hand => hand.1 hself, fun hne => ?_⟩⟩⟩
  · simp only [iput, wp_bind, wp_get, wp_ite, wp_modify, State.setCore_core, update_self, hset]
    refine ⟨fun hlast => absurd hlast.2.2 (by omega), fun _ => ⟨⟨hne, .inl hpos⟩, ?_⟩⟩
    exact hafter _ (fun hv => ⟨rfl, hv⟩) hne
  · rcases hand.2 with hpos | hlt
    · exact hzero hpos
    · omega
  · simp only [iput, wp_bind, wp_get, wp_ite, wp_modify, State.setCore_core, update_self, hset]
    refine ⟨by rintro ⟨⟨⟩, _⟩, fun _ => ⟨⟨hne, .inr (by omega)⟩, ?_⟩⟩
    exact hafter _ (by rintro ⟨⟩) hne

end Steps

/-! ## A directory is a map -/

inductive DirOp where
  /-- `dirlink` of a string. -/
  | link (name : List UInt8) (inum : Nat)
  /-- Erase entry `k`. -/
  | erase (k : Nat)

def DirOp.exec (sb : Super) (dp : Nat) : DirOp → B Bool
  | .link name inum => dirlink sb dp (name ++ [0]) inum
  | .erase k => do
    eraseEntry sb dp (direntSize * k)
    pure true

/-- Names are not empty, inode numbers fit into an entry, and the directory is below its largest size. -/
def DirOp.Legal (dp : Nat) : DirOp → State → Prop
  | .link name inum, s => name ≠ [] ∧ (∀ a ∈ name, a ≠ 0) ∧ 0 < inum ∧ inum < 2 ^ 16 ∧
      (s.inode dp).size < maxfile * bsize
  | .erase k, s => k < (entries s dp).length

/-- A directory in which names are distinct. -/
structure IsMap (sb : Super) (dp : Nat) (s : State) : Prop extends IsDir sb dp s where
  distinct : Distinct (entries s dp)

/-- The loop of `dirlookup` finds `r` for a string. -/
def Yields (sb : Super) (dp : Nat) (s : State) (name : List UInt8) (r : Option Nat) : Prop :=
  ∃ x, dirscan sb dp (name ++ [0]) ((s.core dp).din.size + 1) 0 s = .ok x s ∧ x.map Prod.fst = r

/-- All strings but those that `cut` stands for when they are cut off are looked up as before. -/
def OthersKept (sb : Super) (dp : Nat) (cut : Name) (s s' : State) : Prop :=
  ∀ other : List UInt8, (∀ a ∈ other, a ≠ 0) → other.take dirsiz ≠ cut → ∀ r,
    (Yields sb dp s' other r ↔ Yields sb dp s other r)

/-- What an operation of a map does. -/
def DirOp.Does (sb : Super) (dp : Nat) : DirOp → State → Bool → State → Prop
  | .link name inum, s, r, s' =>
      (r = false ↔ ∃ i, Yields sb dp s name (some i)) ∧
      (r = false → s'.contents = s.contents) ∧
      (r = true → Yields sb dp s' name (some inum)) ∧
      OthersKept sb dp (name.take dirsiz) s s'
  | .erase k, s, _, s' => ∀ e, (entries s dp)[k]? = some e →
      (e.inum ≠ 0 → ∀ name : List UInt8, (∀ a ∈ name, a ≠ 0) → name.take dirsiz = e.name →
        Yields sb dp s' name none) ∧
      OthersKept sb dp e.name s s'

/-- An operation returns, does what it should, and names stay distinct. -/
def DirOp.Behaves (sb : Super) (dp : Nat) (op : DirOp) (s : State) : Prop :=
  wp (op.exec sb dp) (fun r s' => IsMap sb dp s' ∧ op.Does sb dp s r s') noStop s

/-- A name that is there does not stand for the directory itself, and its inode finds a place in the
    cache; for one that is not, there are blocks. -/
def DirOp.Clear (sb : Super) (dp : Nat) : DirOp → State → Prop
  | .link name _, s =>
    match find (entries s dp) (name.take dirsiz) with
    | some i => i ≠ dp ∧ InCache sb s i
    | none => newBlocks s dp (direntSize * freeEntry (entries s dp) / bsize) ≤ freeBlocks sb s
  | .erase _, _ => True

section Ops

variable {sb : Super} {dp : Nat} {s : State} {name : List UInt8} {op : DirOp} {ops : List DirOp}

/-- The whole scan of `dirlookup`. -/
theorem dirscan_string (h : IsDir sb dp s) (hnz : ∀ a ∈ name, a ≠ 0) :
    dirscan sb dp (name ++ [0]) ((s.core dp).din.size + 1) 0 s =
      .ok ((findEntry (name.take dirsiz) 0 (entries s dp)).map fun x => (x.1, direntSize * x.2)) s := by
  have hfuel : (entries s dp).length - 0 < (s.core dp).din.size + 1 := by
    rw [h.size_eq]
    unfold direntSize
    omega
  have hscan := dirscan_eq h (Dirs.holds_string hnz dirsiz) (Nat.zero_le _) hfuel
  rwa [drop_zero] at hscan

theorem yields_iff (h : IsDir sb dp s) (hnz : ∀ a ∈ name, a ≠ 0) :
    Yields sb dp s name r ↔ find (entries s dp) (name.take dirsiz) = r := by
  unfold Yields find
  rw [dirscan_string h hnz]
  constructor
  · rintro ⟨x, hx, rfl⟩
    cases hx
    rw [Option.map_map]
    rfl
  · rintro rfl
    refine ⟨_, rfl, ?_⟩
    rw [Option.map_map]
    rfl

theorem othersKept_of_find {cut : Name} (h : IsDir sb dp s) (h' : IsDir sb dp s')
    (hfind : ∀ nm, nm ≠ cut → find (entries s' dp) nm = find (entries s dp) nm) : OthersKept sb dp cut s s' := by
  intro other hnz hne r
  rw [yields_iff h' hnz, yields_iff h hnz, hfind _ hne]

theorem wp_dirlookup {Q : Option (Nat × Nat) → State → Prop} {E : Stop → State → Prop} (h : IsDir sb dp s)
    (hnz : ∀ a ∈ name, a ≠ 0) :
    wp (dirlookup sb dp (name ++ [0])) Q E s ↔
      match findEntry (name.take dirsiz) 0 (entries s dp) with
      | none => Q none s
      | some x => wp (iget sb x.1) (fun _ s' => Q (some (x.1, direntSize * x.2)) s') E s := by
  have hdir : (s.core dp).din.type = .dir := by
    rw [← inode_of_valid h.valid]
    exact h.dir
  simp only [dirlookup, wp_bind, wp_get, hdir, ne_eq, not_true_eq_false, if_false]
  rw [wp_of_ok (dirscan_string h hnz)]
  cases findEntry (name.take dirsiz) 0 (entries s dp) with
  | none => simp only [Option.map_none, wp_pure]
  | some x => simp only [Option.map_some, wp_bind, wp_pure]

theorem freeEntry_le (es : List Dirent) : freeEntry es ≤ es.length := findIdx_le_length

theorem wp_link_found {i : Nat} (h : IsMap sb dp s) (hnz : ∀ a ∈ name, a ≠ 0)
    (hf : findEntry (name.take dirsiz) 0 (entries s dp) = some (i, k)) :
    wp (dirlink sb dp (name ++ [0]) inum)
      (fun r s' => (i ≠ dp ∧ InCache sb s i) ∧ IsMap sb dp s' ∧ (DirOp.link name inum).Does sb dp s r s')
      (fun _ _ => ¬ (i ≠ dp ∧ InCache sb s i)) s := by
  have hfind : find (entries s dp) (name.take dirsiz) = some i := by
    rw [find, hf]
    rfl
  simp only [dirlink, wp_bind]
  rw [wp_dirlookup h.toIsDir hnz, hf]
  simp only [wp_bind, wp_pure]
  have hback := wp_giveBack (i := i) h.toIsDir
  rw [wp_bind] at hback
  refine wp_post hback fun _ s1 hs1 => wp_post hs1 ?_
  rintro _ s' ⟨hclear, hdir, hsame⟩
  have hes : entries s' dp = entries s dp := by
    rw [entries, entries, hsame]
  refine ⟨hclear, ⟨hdir, hes ▸ h.distinct⟩, ?_, fun _ => hsame, by rintro ⟨⟩, ?_⟩
  · exact ⟨fun _ => ⟨i, (yields_iff h.toIsDir hnz).mpr hfind⟩, fun _ => rfl⟩
  · exact othersKept_of_find h.toIsDir hdir fun nm _ => by rw [hes]

theorem wp_link_new (h : IsMap sb dp s) (hnz : ∀ a ∈ name, a ≠ 0) (hpos : 0 < inum)
    (hlt : inum < 2 ^ 16) (hsize : (s.inode dp).size < maxfile * bsize)
    (hf : findEntry (name.take dirsiz) 0 (entries s dp) = none) :
    wp (dirlink sb dp (name ++ [0]) inum)
      (fun r s' => newBlocks s dp (direntSize * freeEntry (entries s dp) / bsize) ≤ freeBlocks sb s ∧
        IsMap sb dp s' ∧ (DirOp.link name inum).Does sb dp s r s')
      (fun _ _ => ¬ newBlocks s dp (direntSize * freeEntry (entries s dp) / bsize) ≤ freeBlocks sb s) s := by
  have hfind : find (entries s dp) (name.take dirsiz) = none := by
    rw [find, hf]
    rfl
  have hfree := freeEntry_le (entries s dp)
  have hfuel : (entries s dp).length - 0 < (s.core dp).din.size + 1 := by
    rw [h.size_eq]
    unfold direntSize
    omega
  have hscan := freescan_eq h.toIsDir (Nat.zero_le _) hfuel
  rw [drop_zero, Nat.zero_add, Nat.mul_zero] at hscan
  have hfit : direntSize * freeEntry (entries s dp) + direntSize ≤ maxfile * bsize := by
    have hmax : maxfile * bsize = 71680 := rfl
    rw [inode_of_valid h.valid, h.size_eq] at hsize
    unfold direntSize at *
    omega
  simp only [dirlink, wp_bind]
  rw [wp_dirlookup h.toIsDir hnz, hf]
  simp only [wp_bind, wp_get]
  rw [wp_of_ok hscan, Dirs.strncpy_string hnz]
  simp only [wp_bind, wp_pure]
  have hde : (encode inum (name.take dirsiz ++ List.replicate (dirsiz - name.length) 0)).length = direntSize := by
    simp only [encode, length_cons, length_append, length_take, length_replicate]
    unfold dirsiz direntSize
    omega
  refine wp_post (wp_writeDirent h.toIsDir hde hfree hfit) ?_
  rintro _ s' ⟨hspace, hdir, hes⟩
  rw [decode_encode hlt hnz] at hes
  have hne : (⟨inum, name.take dirsiz⟩ : Dirent).inum ≠ 0 := hpos.ne'
  refine ⟨hspace, ⟨hdir, ?_⟩, ?_, by rintro ⟨⟩, fun _ => ?_, ?_⟩
  · rw [hes]
    exact h.distinct.put hne hfind
  · refine ⟨by rintro ⟨⟩, fun hex => ?_⟩
    obtain ⟨i, hi⟩ := hex
    rw [yields_iff h.toIsDir hnz, hfind] at hi
    cases hi
  · rw [yields_iff hdir hnz, hes]
    exact find_put h.distinct hne hfind
  · refine othersKept_of_find h.toIsDir hdir fun nm hnm => ?_
    rw [hes]
    exact find_put_ne h.distinct hne hfind hnm

theorem wp_erase (h : IsMap sb dp s) (hk : k < (entries s dp).length) :
    wp ((DirOp.erase k).exec sb dp)
      (fun r s' => IsMap sb dp s' ∧ (DirOp.erase k).Does sb dp s r s') noStop s := by
  have hsize := h.size_eq
  have hsmall := h.inv.small dp h.inside
  rw [← h.inv.inode_eq dp, inode_of_valid h.valid] at hsmall
  have hfit : direntSize * k + direntSize ≤ maxfile * bsize := by
    unfold direntSize at *
    omega
  have hfilled : s.target (fileSlot dp (direntSize * k / bsize)) ≠ none := by
    refine h.inv.filled dp h.inside _ ?_
    rw [← h.inv.inode_eq dp, inode_of_valid h.valid, hsize]
    exact Nat.mul_lt_mul_of_pos_left hk (by decide)
  have hspace : newBlocks s dp (direntSize * k / bsize) ≤ freeBlocks sb s := by
    rw [newBlocks_of_target hfilled]
    exact Nat.zero_le _
  have hblank : decode (List.replicate direntSize 0) = ⟨0, []⟩ := by decide
  simp only [DirOp.exec, eraseEntry, wp_bind, wp_pure]
  refine wp_mono (wp_writeDirent h.toIsDir (length_replicate ..) hk.le hfit) ?_
    fun _ _ hno => hno hspace
  rintro _ s' ⟨_, hdir, hes⟩
  rw [hblank, putEntry, if_pos hk] at hes
  obtain ⟨e, he⟩ : ∃ e, (entries s dp)[k]? = some e := ⟨_, getElem?_eq_getElem hk⟩
  refine ⟨⟨hdir, ?_⟩, fun e' he' => ⟨fun hne name hnz hname => ?_, ?_⟩⟩
  · rw [hes]
    exact h.distinct.erase he
  · rw [yields_iff hdir hnz, hes, hname]
    exact find_erase h.distinct he' hne
  · refine othersKept_of_find h.toIsDir hdir fun nm hnm => ?_
    rw [hes]
    exact find_erase_ne h.distinct he' hnm

theorem behaves_iff (h : IsMap sb dp s) (hlegal : op.Legal dp s) : op.Behaves sb dp s ↔ op.Clear sb dp s := by
  have hexact : wp (op.exec sb dp) (fun r s' => op.Clear sb dp s ∧ IsMap sb dp s' ∧ op.Does sb dp s r s')
      (fun _ _ => ¬ op.Clear sb dp s) s := by
    cases op with
    | link name inum =>
      obtain ⟨_, hnz, hpos, hlt, hsize⟩ := hlegal
      cases hf : findEntry (name.take dirsiz) 0 (entries s dp) with
      | none =>
        simp only [DirOp.Clear, find, hf, Option.map_none]
        exact wp_link_new h hnz hpos hlt hsize hf
      | some x =>
        simp only [DirOp.Clear, find, hf, Option.map_some]
        exact wp_link_found h hnz hf
    | erase k => exact wp_mono (wp_erase h hlegal) (fun _ _ hs => ⟨trivial, hs⟩) fun _ _ hf => hf.elim
  constructor
  · intro hb
    obtain ⟨r, s', _, _, hclear, _⟩ := wp_noStop_iff.mp (wp_and hb hexact)
    exact hclear
  · intro hclear
    exact wp_mono hexact (fun _ _ hs => hs.2) fun _ _ hno => hno hclear

/-- In every sequence of operations on a directory, all of them are those of a map exactly if none
    of them meets an entry for the directory itself, a full cache or a full disk. -/
theorem directory_map_iff (h : IsMap sb dp s) (hlegal : Run.Along (DirOp.exec sb dp) (DirOp.Legal dp) ops s) :
    Run.Along (DirOp.exec sb dp) (DirOp.Behaves sb dp) ops s ↔
      Run.Along (DirOp.exec sb dp) (DirOp.Clear sb dp) ops s := by
  refine Run.along_iff (fun op s hs hop => behaves_iff hs hop) (fun op s hs hop hb => ?_) h hlegal
  exact wp_mono hb (fun _ _ hs' => hs'.1) fun _ _ hf => hf.elim

end Ops

/-! ### A small directory -/

/-- The entries `.` and `..` of the root directory. -/
def smallDots : List UInt8 :=
  encode 1 (46 :: List.replicate 13 0) ++ encode 1 (46 :: 46 :: List.replicate 12 0)

def smallDirOps : List BlockOp := [.iget 1, .writei 1 (fun k => smallDots.getD k 0) 0 32]

def smallDir : State := Run.final (Run.run (BlockOp.exec smallSuper) smallDirOps) smallImage

theorem smallDir_isMap : IsMap smallSuper 1 smallDir where
  inv := by
    have hops : Run.Along (BlockOp.exec smallSuper) (BlockOp.Promised smallSuper) smallDirOps smallImage := by
      decide +kernel
    have hrun := Run.wp_invariant (fun _ _ hs hop => exec_inv hs hop) smallImage_wellFormed.inv hops
    exact Run.final_of_wp hrun (by decide +kernel)
  inside := by decide
  valid := by decide +kernel
  dir := by decide +kernel
  whole := by decide +kernel
  distinct := by
    unfold Distinct
    decide +kernel

instance (dp : Nat) : (op : DirOp) → (s : State) → Decidable (op.Legal dp s)
  | .link name inum, s => inferInstanceAs (Decidable (name ≠ [] ∧ (∀ a ∈ name, a ≠ 0) ∧ 0 < inum ∧
      inum < 2 ^ 16 ∧ (s.inode dp).size < maxfile * bsize))
  | .erase k, s => inferInstanceAs (Decidable (k < (entries s dp).length))

instance (sb : Super) (s : State) (i : Nat) : Decidable (InCache sb s i) :=
  inferInstanceAs (Decidable (_ ∨ _))

instance (sb : Super) (dp : Nat) : (op : DirOp) → (s : State) → Decidable (op.Clear sb dp s)
  | .link name _, s =>
    match h : find (entries s dp) (name.take dirsiz) with
    | some i => decidable_of_iff (i ≠ dp ∧ InCache sb s i) (by simp [DirOp.Clear, h])
    | none => decidable_of_iff
        (newBlocks s dp (direntSize * freeEntry (entries s dp) / bsize) ≤ freeBlocks sb s)
        (by simp [DirOp.Clear, h])
  | .erase _, _ => .isTrue trivial

/-- A name of fifteen bytes, a second one that differs in the last of them, and one that takes the place
    of an entry which has been erased. -/
def smallSession : List DirOp :=
  [.link (List.replicate 15 97) 2, .link (List.replicate 14 97 ++ [98]) 3, .erase 2, .link [98] 3]

theorem directory_map_iff_smallDir :
    Run.Along (DirOp.exec smallSuper 1) (DirOp.Behaves smallSuper 1) smallSession smallDir :=
  (directory_map_iff smallDir_isMap (by decide +kernel)).mpr (by decide +kernel)

/-- `dirlink` of `.` waits for the lock of the directory, which its caller holds. -/
theorem dirlink_dot_waits : (DirOp.link [46] 2).Legal 1 smallDir ∧
    ¬ Run.Along (DirOp.exec smallSuper 1) (DirOp.Behaves smallSuper 1) [.link [46] 2] smallDir := by
  refine ⟨by decide +kernel, fun hall => ?_⟩
  obtain ⟨r, s', hrun, _⟩ := wp_noStop_iff.mp hall.1
  have hstop : Run.stopOf ((DirOp.link [46] 2).exec smallSuper 1) smallDir = some .diverge := by
    decide +kernel
  rw [Run.error_of_stopOf hstop] at hrun
  cases hrun

end Xv6Paging.DirBytes
