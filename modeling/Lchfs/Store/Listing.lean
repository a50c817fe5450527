import Lchfs.Store.Namespace

/-!
# Listing a directory over NFS

A client reads a directory page by page, and resumes after the inode number of the last entry that it
got. The listing is complete as long as the directory has no inode under two names.
-/

namespace Lchfs.Store.Nfs

open Lchfs.Format
open List

structure ReadDirResult where
  entries : List (DirEntry × InodeObject)
  atEnd : Bool
  deriving DecidableEq

section

variable (ns : Namespace)

def getattr (ino : Ino) : Except PoolError InodeObject :=
  match ns.inodes.lookup ino with
  | none => .error (.noSuchInode ino)
  | some inode => .ok inode

/-- The loop of `readdir` over the entries that remain. -/
def readEntries (maxEntries : Nat) : List DirEntry → List (DirEntry × InodeObject) → Except PoolError ReadDirResult
  | [], out => .ok ⟨out, true⟩
  | e :: remaining, out => do
    let inode ← getattr ns e.ino
    let out := out ++ [(e, inode)]
    if maxEntries ≤ out.length then .ok ⟨out, remaining.isEmpty⟩
    else readEntries maxEntries remaining out

/-- The number of entries up to the one that the client saw last. -/
def skip (entries : List DirEntry) (startAfter : Ino) : Nat :=
  if startAfter = 0 then 0
  else match entries.findIdx? (·.ino = startAfter) with
    | some p => p + 1
    | none => 0

def readdir (dirid startAfter : Ino) (maxEntries : Nat) : Except PoolError ReadDirResult :=
  match ns.dirs dirid with
  | none => .error (.notADirectory dirid)
  | some entries => readEntries ns maxEntries (entries.drop (skip entries startAfter)) []

/-- What a client gets in at most `calls` pages, and whether it was told that this is all. -/
def listing (dirid : Ino) (maxEntries : Nat) :
    Nat → Ino → Except PoolError (List (DirEntry × InodeObject) × Bool)
  | 0, _ => .ok ([], false)
  | calls + 1, startAfter => do
    let page ← readdir ns dirid startAfter maxEntries
    if page.atEnd then return (page.entries, true)
    let (more, atEnd) ← listing dirid maxEntries calls ((page.entries.getLast?.map (·.1.ino)).getD startAfter)
    return (page.entries ++ more, atEnd)

end

variable {ns : Namespace} {dirid : Ino} {maxEntries : Nat} {dir before remaining : List DirEntry}

/-- A page: the next entries, up to the number asked for. -/
theorem readEntries_spec (out : List (DirEntry × InodeObject))
    (hinodes : ∀ e ∈ remaining, (ns.inodes.lookup e.ino).isSome) (hout : out.length < maxEntries) :
    ∃ page, readEntries ns maxEntries remaining out =
        .ok ⟨out ++ page, remaining.length ≤ maxEntries - out.length⟩ ∧
      page.map (·.1) = remaining.take (maxEntries - out.length) := by
  induction remaining generalizing out with
  | nil => exact ⟨[], by simp [readEntries], by simp⟩
  | cons e remaining ih =>
    obtain ⟨hsome, hrest⟩ := forall_mem_cons.1 hinodes
    obtain ⟨inode, hinode⟩ := Option.isSome_iff_exists.1 hsome
    obtain ⟨n, hn⟩ : ∃ n, maxEntries - out.length = n + 1 := ⟨maxEntries - out.length - 1, by omega⟩
    simp only [readEntries, getattr, hinode, Except.bind, bind, length_append, length_singleton]
    by_cases hfull : maxEntries ≤ out.length + 1
    · refine ⟨[(e, inode)], ?_, ?_⟩
      · obtain rfl : n = 0 := by omega
        cases remaining <;> simp [hfull, hn]
      · obtain rfl : n = 0 := by omega
        simp [hn]
    · obtain ⟨page, hpage, htake⟩ := ih (out ++ [(e, inode)]) hrest (by simp; omega)
      have hn' : maxEntries - (out.length + 1) = n := by omega
      refine ⟨(e, inode) :: page, ?_, ?_⟩
      · simp [hfull, hpage, hn, hn']
      · simpa [hn, hn'] using htake

/-- The number that a client resumes after when it has got these entries. -/
def lastIno (entries : List DirEntry) : Ino := (entries.getLast?.map (·.ino)).getD 0

/-- Without repeated numbers, the client resumes where it stopped. -/
theorem skip_lastIno (hnodup : ((before ++ remaining).map (·.ino)).Nodup) (hzero : ∀ e ∈ before, e.ino ≠ 0) :
    skip (before ++ remaining) (lastIno before) = before.length := by
  rcases eq_nil_or_concat' before with rfl | ⟨init, e, rfl⟩
  · rfl
  have hfind : init.findIdx? (·.ino = e.ino) = none := by
    rw [findIdx?_eq_none_iff]
    intro x hx
    simp only [map_append, nodup_append] at hnodup
    have hne := hnodup.1.2.2 x.ino (mem_map_of_mem hx) e.ino (by simp)
    simpa using hne
  have he : e.ino ≠ 0 := hzero e (by simp)
  simp [skip, lastIno, he, findIdx?_append, hfind, findIdx?_cons]

theorem listing_spec (before remaining : List DirEntry) (hmax : 1 ≤ maxEntries) {calls : Nat} (hdir : ns.dirs dirid = some (before ++ remaining))
    (hinodes : ∀ e ∈ before ++ remaining, e.ino ≠ 0 ∧ (ns.inodes.lookup e.ino).isSome)
    (hnodup : ((before ++ remaining).map (·.ino)).Nodup) (hcalls : remaining.length < calls) :
    ∃ got, listing ns dirid maxEntries calls (lastIno before) = .ok (got, true) ∧ got.map (·.1) = remaining := by
  induction calls generalizing before remaining with
  | zero => simp at hcalls
  | succ _ ih =>
    obtain ⟨hbefore, hremaining⟩ := forall_mem_append.1 hinodes
    obtain ⟨page, hpage, htake⟩ := readEntries_spec [] (fun e he ↦ (hremaining e he).2) hmax
    have hread : readdir ns dirid (lastIno before) maxEntries = .ok ⟨page, remaining.length ≤ maxEntries⟩ := by
      simp only [readdir, hdir, skip_lastIno hnodup fun e he ↦ (hbefore e he).1, drop_left]
      exact hpage
    simp only [length_nil, Nat.sub_zero] at htake
    simp only [listing, hread, Except.bind, bind]
    by_cases hend : remaining.length ≤ maxEntries
    · exact ⟨page, by simp [hend, pure, Except.pure], by rw [htake, take_of_length_le hend]⟩
    · -- the next call goes on after the page
      have hsplit : before ++ remaining = (before ++ remaining.take maxEntries) ++ remaining.drop maxEntries := by simp
      have hlast : (page.getLast?.map (·.1.ino)).getD (lastIno before) =
          lastIno (before ++ remaining.take maxEntries) := by
        simp only [← htake, lastIno, getLast?_append, getLast?_map]
        cases page.getLast? <;> rfl
      obtain ⟨got, hgot, hmap⟩ := ih (before ++ remaining.take maxEntries) _ (hsplit ▸ hdir) (hsplit ▸ hinodes)
        (hsplit ▸ hnodup) (by simp; omega)
      refine ⟨page ++ got, ?_, by simp [htake, hmap]⟩
      simp [hend, hlast, hgot, pure, Except.pure]

/-- Files `a`, `b` and `d`, and `c` as a second name of `a` if it is linked. -/
def abcd (linked : Bool) : Except PoolError Namespace := do
  let (a, ns) ← Namespace.create.createEntry rootDirIno "a" .file ""
  let (_, ns) ← ns.createEntry rootDirIno "b" .file ""
  let ns ← if linked then ns.link a rootDirIno "c" else .ok ns
  return (← ns.createEntry rootDirIno "d" .file "").2

end Lchfs.Store.Nfs
