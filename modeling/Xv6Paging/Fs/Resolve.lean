import Xv6Paging.Fs.DirRuns

/-! # Path resolution (`skipelem` and `namex` of `fs.c`)

    What a path stands for is said here without the loop: its components are the maximal
    pieces without a slash, cut off after `DIRSIZ` bytes, and a path is resolved by looking
    them up one after the other. `namex` gets there for every path, and gives back every
    reference but the one to its result, unless the inode cache has no room for an inode
    on the way.
-/

namespace Xv6Paging.Dirs

open List Wp
open Blocks (ninode)

variable {path : Path} {parent : Bool} {ip : Nat}

/-! ## Components -/

/-- The maximal pieces of a path without a slash. -/
def pieces (path : Path) : List (List UInt8) := (path.splitOnP (· == slash)).filter (· != [])

/-- Names are cut off. -/
def components (path : Path) : List Name := (pieces path).map (List.take dirsiz)

theorem pieces_slash (path : Path) : pieces (slash :: path) = pieces path := by
  unfold pieces
  rw [splitOnP_cons_eq_if_modifyHead, if_pos (by decide)]
  rfl

theorem pieces_dropWhile (path : Path) : pieces (path.dropWhile (· == slash)) = pieces path := by
  induction path with
  | nil => rfl
  | cons c cs ih =>
    by_cases hc : c = slash
    · subst hc
      rw [pieces_slash, ← ih, dropWhile_cons_of_pos (by decide)]
    · rw [dropWhile_cons_of_neg (by simpa using hc)]

/-- The first piece of a path that does not start with a slash. -/
theorem pieces_takeWhile (hne : path ≠ []) (hhead : path.head? ≠ some slash) :
    pieces path = path.takeWhile (· != slash) :: pieces (path.dropWhile (· != slash)) := by
  have hpiece : path.takeWhile (· != slash) ≠ [] := by
    cases path with
    | nil => exact absurd rfl hne
    | cons c cs =>
      have hc : c ≠ slash := fun hc => hhead (congrArg some hc)
      rw [takeWhile_cons_of_pos (by simpa using hc)]
      exact cons_ne_nil _ _
  have hno : ∀ x ∈ path.takeWhile (· != slash), (x == slash) = false := by
    intro x hx
    simpa using mem_takeWhile_imp hx
  have hsplit := takeWhile_append_dropWhile (p := (· != slash)) (l := path)
  generalize path.takeWhile (· != slash) = w at *
  cases hrest : path.dropWhile (· != slash) with
  | nil =>
    rw [hrest, append_nil] at hsplit
    subst hsplit
    unfold pieces
    rw [splitOnP_eq_singleton hno]
    simp [hpiece]
  | cons c cs =>
    have hc : c = slash := by
      have := head?_dropWhile_not (· != slash) path
      rw [hrest] at this
      simpa using this
    subst hc
    rw [hrest] at hsplit
    rw [← hsplit, pieces_slash]
    unfold pieces
    rw [splitOnP_append_cons_of_forall_mem hno slash (by decide)]
    simp [hpiece]

/-- `skipelem`, one call after the other, finds the components. -/
theorem elementsFrom_eq {fuel : Nat} (hfuel : path.length ≤ fuel) :
    elementsFrom fuel path = components path := by
  induction fuel generalizing path with
  | zero =>
    obtain rfl : path = [] := length_eq_zero_iff.mp (by omega)
    rfl
  | succ fuel ih =>
    unfold components
    rw [← pieces_dropWhile, elementsFrom, skipelem]
    have hlen := (dropWhile_suffix (l := path) (· == slash)).length_le
    have hhead := head?_dropWhile_not (· == slash) path
    cases hdrop : path.dropWhile (· == slash) with
    | nil => rfl
    | cons c cs =>
      rw [hdrop] at hlen hhead
      have hslash : (c :: cs).head? ≠ some slash := by
        simpa using hhead
      rw [pieces_takeWhile (cons_ne_nil _ _) hslash, map_cons]
      -- What is left of the path is shorter, by the first byte of the piece at least.
      have hc : (c != slash) = true := by simpa using hslash
      have hrest := (dropWhile_suffix (l := cs) (· != slash)).length_le
      have hshort := (dropWhile_suffix (l := cs.dropWhile (· != slash)) (· == slash)).length_le
      rw [length_cons] at hlen
      have hskip : (c :: cs).dropWhile (· != slash) = cs.dropWhile (· != slash) :=
        dropWhile_cons_of_pos hc
      show _ :: elementsFrom fuel (((c :: cs).dropWhile (· != slash)).dropWhile (· == slash)) = _
      rw [hskip, ih (by omega), components, pieces_dropWhile]

theorem elements_eq (path : Path) : elements path = components path := elementsFrom_eq le_rfl

/-! ## What a path stands for -/

namespace Files

variable (v : Files)

/-- The inode reached by looking up names one after the other. -/
def reach : Nat → List Name → Option Nat
  | ip, [] => some ip
  | ip, name :: rest =>
    if (v.inode ip).type = .dir then (v.lookup ip name).bind fun x => reach x.1 rest else none

/-- The directory that a last component is to be looked up in. -/
def reachParent (ip : Nat) (els : List Name) : Option (Nat × Name) := do
  let name ← els.getLast?
  let dp ← v.reach ip els.dropLast
  if (v.inode dp).type = .dir then some (dp, name) else none

/-- The inode of a path, or the directory that holds its last component, with that component. -/
def resolve (p : Fin nproc) (path : Path) (parent : Bool) : Option (Nat × Name) :=
  if parent = true then
    v.reachParent (v.start p path) (components path)
  else
    (v.reach (v.start p path) (components path)).map fun ip => (ip, [])

/-- What is reached by some of the components is not a directory, or does not have the next one. -/
def Astray (parent : Bool) (ip : Nat) (els : List Name) : Prop :=
  ∃ front name rest dp, els = front ++ name :: rest ∧ v.reach ip front = some dp ∧
    ((v.inode dp).type ≠ .dir ∨ (parent = true → rest ≠ []) ∧ v.lookup dp name = none)

/-- The reasons to find nothing. -/
def Lost (p : Fin nproc) (path : Path) (parent : Bool) : Prop :=
  v.Astray parent (v.start p path) (components path) ∨ parent = true ∧ components path = []

variable {v}

theorem walk_false (ip : Nat) (els : List Name) :
    v.walk false ip els = (v.reach ip els).map fun i => (i, []) := by
  induction els generalizing ip with
  | nil => rfl
  | cons name rest ih =>
    unfold walk reach
    by_cases hdir : (v.inode ip).type = .dir
    · rw [if_neg (not_not.mpr hdir), if_neg (by simp), if_pos hdir]
      cases v.lookup ip name with
      | none => rfl
      | some x => exact ih x.1
    · rw [if_pos hdir, if_neg hdir]
      rfl

theorem walk_true (ip : Nat) (els : List Name) : v.walk true ip els = v.reachParent ip els := by
  induction els generalizing ip with
  | nil => rfl
  | cons name rest ih =>
    unfold walk
    cases rest with
    | nil =>
      by_cases hdir : (v.inode ip).type = .dir
      · simp [hdir, reachParent, reach]
      · simp [hdir, reachParent, reach]
    | cons name' rest =>
      have hlast : (name :: name' :: rest).getLast? = (name' :: rest).getLast? := by simp
      unfold reachParent at ih ⊢
      rw [dropLast_cons_of_ne_nil (cons_ne_nil _ _), hlast, reach]
      by_cases hdir : (v.inode ip).type = .dir
      · rw [if_neg (not_not.mpr hdir), if_neg (by simp), if_pos hdir]
        cases v.lookup ip name with
        | none => simp
        | some x => exact ih x.1
      · simp [hdir]

theorem namex_eq (p : Fin nproc) (path : Path) (parent : Bool) :
    v.namex p path parent = v.resolve p path parent := by
  unfold namex resolve
  rw [elements_eq]
  cases parent with
  | false => exact walk_false _ _
  | true => exact walk_true _ _

theorem not_astray_nil : ¬ v.Astray parent ip [] := by
  rintro ⟨front, name, rest, dp, hels, _⟩
  exact append_ne_nil_of_right_ne_nil _ (cons_ne_nil _ _) hels.symm

theorem astray_cons {name : Name} {rest : List Name} (hdir : (v.inode ip).type = .dir) :
    v.Astray parent ip (name :: rest) ↔ (parent = true → rest ≠ []) ∧ v.lookup ip name = none ∨
      ∃ x, v.lookup ip name = some x ∧ v.Astray parent x.1 rest := by
  constructor
  · rintro ⟨front, name', rest', dp, hels, hreach, hwhy⟩
    cases front with
    | nil =>
      cases hels
      cases hreach
      exact .inl (hwhy.resolve_left (not_not.mpr hdir))
    | cons n front =>
      cases hels
      rw [reach, if_pos hdir, Option.bind_eq_some_iff] at hreach
      obtain ⟨x, hx, hreach⟩ := hreach
      exact .inr ⟨x, hx, front, name', rest', dp, rfl, hreach, hwhy⟩
  · rintro (hnone | ⟨x, hx, front, name', rest', dp, rfl, hreach, hwhy⟩)
    · exact ⟨[], name, rest, ip, rfl, rfl, .inr hnone⟩
    · refine ⟨name :: front, name', rest', dp, rfl, ?_, hwhy⟩
      rw [reach, if_pos hdir, hx]
      exact hreach

theorem walk_eq_none_iff {els : List Name} :
    v.walk parent ip els = none ↔ v.Astray parent ip els ∨ parent = true ∧ els = [] := by
  induction els generalizing ip with
  | nil =>
    unfold walk
    simp [not_astray_nil]
  | cons name rest ih =>
    unfold walk
    by_cases hdir : (v.inode ip).type = .dir
    · rw [if_neg (not_not.mpr hdir), astray_cons hdir]
      by_cases hlast : parent = true ∧ rest = []
      · obtain ⟨hp, rfl⟩ := hlast
        simp [hp, not_astray_nil]
      · have hmore : parent = true → rest ≠ [] := fun hp hr => hlast ⟨hp, hr⟩
        rw [if_neg hlast]
        cases hl : v.lookup ip name with
        | none => exact ⟨fun _ => .inl (.inl ⟨hmore, rfl⟩), fun _ => rfl⟩
        | some x =>
          have hrest : v.walk parent x.1 rest = none ↔ _ := ih
          simp only [hlast, or_false] at hrest
          simp [hrest]
    · rw [if_pos hdir]
      exact ⟨fun _ => .inl ⟨[], name, rest, ip, rfl, rfl, .inl hdir⟩, fun _ => rfl⟩

theorem namex_eq_none_iff : v.namex p path parent = none ↔ v.Lost p path parent := by
  unfold namex Lost
  rw [elements_eq]
  exact walk_eq_none_iff

end Files

/-! ## `namex` -/

section Namex

variable {v : Files} {held : Nat → Nat} {s : State} {p : Fin nproc}

/-- `namex` finds what the path stands for, and all references are as before but for one to the inode
    that is returned; no lock is held. -/
def Resolves (v : Files) (held : Nat → Nat) (p : Fin nproc) (path : Path) (parent : Bool) (s : State) :
    Prop :=
  wp (namex p path parent) (fun r s' => r = v.resolve p path parent ∧ (r = none ↔ v.Lost p path parent) ∧
    At v held (r.map Prod.fst).toList [] s') noStop s

/-- The cache has room for every inode that is looked up, besides those that are held and the directory
    it is found in. -/
def Room (v : Files) (held : Nat → Nat) (p : Fin nproc) (path : Path) (parent : Bool) : Prop :=
  (path.head? = some slash → Enters held [] rootino) ∧
    WalkRoom v held [] parent (v.start p path) (components path)

instance : Decidable (Room v held p path parent) := by
  unfold Room WalkRoom
  infer_instance

theorem wp_namex_exact (h : At v held [] [] s) (hr : Ready v held) :
    wp (namex p path parent) (fun r s' => Room v held p path parent ∧ r = v.namex p path parent ∧
        At v held (r.map Prod.fst).toList [] s')
      (fun _ _ => ¬ Room v held p path parent) s := by
  unfold namex Room Files.namex Files.start
  rw [← elements_eq]
  simp only [wp_bind, wp_get, wp_ite, h.files]
  refine ⟨fun hroot => ?_, fun hrel => ?_⟩
  · rw [if_pos hroot]
    refine wp_mono (wp_iget_exact h hr.root) ?_ ?_
    · rintro _ s' ⟨henter, h'⟩
      refine wp_mono (wp_namexFrom_exact h' hr.live (hr.root.2.imp_right .inr)) ?_ ?_
      · rintro r s'' ⟨hroom, hwalk, h''⟩
        rw [append_nil] at h''
        exact ⟨⟨fun _ => henter, hroom⟩, hwalk, h''⟩
      · rintro e s'' ⟨_, hfull⟩ hroom
        exact hfull hroom.2
    · rintro e s' ⟨_, hfull⟩ hroom
      exact hfull (hroom.1 hroot)
  · rw [if_neg hrel]
    refine wp_post (wp_idup h (hr.cwd p)) fun _ s' h' => ?_
    refine wp_mono (wp_namexFrom_exact h' hr.live (.inr (.inr (hr.cwd p)))) ?_ ?_
    · rintro r s'' ⟨hroom, hwalk, h''⟩
      rw [append_nil] at h''
      exact ⟨⟨fun hroot => absurd hroot hrel, hroom⟩, hwalk, h''⟩
    · rintro e s'' ⟨_, hfull⟩ hroom
      exact hfull hroom.2

/-- Every path is resolved, and references are balanced, where the inode cache has room. -/
theorem namex_resolves_iff (h : At v held [] [] s) (hr : Ready v held) :
    Resolves v held p path parent s ↔ Room v held p path parent := by
  have hexact : wp (namex p path parent) _ _ s := wp_namex_exact h hr
  constructor
  · intro hres
    obtain ⟨r, s', _, _, hroom, _⟩ := wp_noStop_iff.mp (wp_and hres hexact)
    exact hroom
  · intro hroom
    refine wp_mono hexact ?_ (fun _ _ hfull => hfull hroom)
    rintro r s' ⟨_, hr, h'⟩
    refine ⟨hr.trans (Files.namex_eq p path parent), ?_, h'⟩
    rw [hr]
    exact Files.namex_eq_none_iff

end Namex

/-- `//R/`, in an image with one file. -/
theorem namex_resolves_iff_oneFile :
    Resolves (mkfs oneFile.names).toFiles (mkfs oneFile.names).holds proc0 [47, 47, 82, 47] false
      (mkfs oneFile.names) := by
  have hholds : (mkfs oneFile.names).holds = fun i => if i = rootino then nproc else 0 :=
    funext (holders_cwd (fun _ => rfl) fun _ => rfl)
  refine (namex_resolves_iff (mkfs_inv oneFile).quiet (mkfs_inv oneFile).good.ready).mpr ?_
  rw [hholds]
  decide +kernel

/-! ### A full cache -/

/-- An image with sixty files. -/
def sixtyFiles : Image where
  names := (List.range 60).map fun k => [UInt8.ofNat (65 + k)]
  inside := by decide
  named := by decide

/-- Processes have the root directory and the first 49 files open. -/
def crowdRefs (i : Nat) : Nat := if i = rootino then nproc else if rootino < i ∧ i ≤ 50 then 1 else 0

def crowded : State where
  toFiles := (mkfs sixtyFiles.names).toFiles
  core := fun i => ⟨crowdRefs i, true, false⟩

theorem crowded_at : At crowded.toFiles crowdRefs [] [] crowded where
  files := rfl
  refs := fun _ => rfl
  locked := by simp [crowded]
  read := nofun
  valid := fun _ _ _ => rfl
  alive := by
    intro i hi
    have hi' : 0 < crowdRefs i := hi
    have hlen : sixtyFiles.names.length = 60 := by decide
    show (mkfsInode sixtyFiles.names i).type ≠ .free
    unfold crowdRefs at hi'
    unfold mkfsInode
    split
    · exact nofun
    · rename_i hroot
      rw [if_neg hroot] at hi'
      split at hi'
      · rw [if_pos (by rw [hlen]; omega)]
        exact nofun
      · omega

theorem crowded_ready : Ready crowded.toFiles crowdRefs where
  live := (mkfs_good sixtyFiles).live crowdRefs
  root := ⟨(mkfs_good sixtyFiles).ready.root.1, .inr (by decide)⟩
  cwd := fun _ => by
    show 0 < crowdRefs rootino
    decide

/-- The last file cannot be looked up: `iget` finds no entry for it and panics. -/
theorem namex_cache_full : At crowded.toFiles crowdRefs [] [] crowded ∧ Ready crowded.toFiles crowdRefs ∧
    ¬ Resolves crowded.toFiles crowdRefs proc0 [47, 124] false crowded := by
  refine ⟨crowded_at, crowded_ready, fun hres => ?_⟩
  have hexact : wp (namex proc0 [47, 124] false) _ _ crowded := wp_namex_exact crowded_at crowded_ready
  obtain ⟨r, s', _, _, hroom, _⟩ := wp_noStop_iff.mp (wp_and hres hexact)
  exact absurd hroom (by decide +kernel)

end Xv6Paging.Dirs
