import Lchfs.Format.Objects
import Lchfs.Library.Table

/-!
# The namespace

The in-memory inode table, the directories and the inode allocator. Every operation
of this file runs under the namespace lock and is one step of the pool. An operation
that fails leaves the namespace as it was.
-/

namespace Lchfs.Store

open Lchfs.Format Lchfs.Library
open Table List Function

inductive PoolError
  | integrityFailure (hash : Hash32)
  | noSuchInode (ino : Ino)
  | format (message : String)
  | notADirectory (ino : Ino)
  | alreadyExists (name : String)
  | notFound (name : String)
  | tooLarge (size : Nat)
  | isADirectory (ino : Ino)
  | notEmpty (ino : Ino)
  | invalidArgument (message : String)
  deriving DecidableEq

structure Namespace where
  inodes : Table Ino InodeObject
  dirs : Ino → Option DirectoryObject
  parents : Ino → Option Ino
  nextIno : Ino
  dirtyInodes : List Ino
  generation : Nat
  rootHash : Hash32

namespace Namespace

/-- The namespace of a pool that has just been created: an empty root directory that
no checkpoint has encoded. -/
def create : Namespace where
  inodes := (∅ : Table Ino InodeObject).insert rootDirIno
    { kind := .directory, size := 0, nlink := 2, content := .dirEntries none }
  dirs := update (fun _ ↦ none) rootDirIno (some [])
  parents := update (fun _ ↦ none) rootDirIno (some rootDirIno)
  nextIno := rootDirIno + 1
  dirtyInodes := [rootDirIno]
  generation := 0
  rootHash := .zero

def markDirty (ino : Ino) (ns : Namespace) : Namespace :=
  { ns with dirtyInodes := ns.dirtyInodes.insert ino }

def setContent (ino : Ino) (content : ContentRef) (ns : Namespace) : Namespace :=
  { ns with inodes := ns.inodes.modify ino fun inode ↦ { inode with content := content } }

/-- The end of a write: the new size, and the inode is dirty. -/
def touch (ino : Ino) (size : Nat) (ns : Namespace) : Namespace :=
  { ns with inodes := ns.inodes.modify ino fun inode ↦ { inode with size := size } }.markDirty ino

def sortEntries (entries : DirectoryObject) : DirectoryObject :=
  entries.insertionSort fun a b ↦ a.name ≤ b.name

/-- Adds a directory entry and keeps the entries in name order. -/
def addEntry (parent : Ino) (entry : DirEntry) (ns : Namespace) : Namespace :=
  { ns with
    dirs := update ns.dirs parent
      (some (sortEntries ((ns.dirs parent).getD [] ++ [entry]))) }

/-- The inode object a new entry starts with. -/
def newInode (kind : InodeKind) (symlinkTarget : String) : InodeObject :=
  match kind with
  | .directory => { kind := kind, size := 0, nlink := 2, content := .dirEntries none }
  | .file => { kind := kind, size := 0, nlink := 1, content := .inline [] }
  | .symlink =>
    { kind := kind, size := symlinkTarget.utf8ByteSize, nlink := 1,
      content := .symlinkTarget symlinkTarget }

def createEntry (ns : Namespace) (parent : Ino) (name : String) (kind : InodeKind)
    (symlinkTarget : String) : Except PoolError (Ino × Namespace) :=
  match ns.dirs parent with
  | none => .error (.notADirectory parent)
  | some dir =>
    if dir.any (·.name = name) then .error (.alreadyExists name)
    else
      let ino := ns.nextIno
      let ns : Namespace := { ns with
        nextIno := ino + 1
        inodes := ns.inodes.insert ino (newInode kind symlinkTarget)
        dirs := if kind = .directory then update ns.dirs ino (some []) else ns.dirs
        parents := update ns.parents ino (some parent) }
      .ok (ino, (ns.addEntry parent ⟨name, ino, kind⟩).markDirty parent |>.markDirty ino)

/-- Removes an inode from the namespace. Its working state, if any, stays. -/
def remove (ino : Ino) (ns : Namespace) : Namespace :=
  { ns with
    inodes := ns.inodes.erase ino
    dirs := update ns.dirs ino none
    parents := update ns.parents ino none
    dirtyInodes := ns.dirtyInodes.filter (· ≠ ino) }

/-- Drops one link; the last one removes the inode. -/
def releaseInodeRef (ino : Ino) (ns : Namespace) : Namespace :=
  match ns.inodes.lookup ino with
  | none => ns
  | some inode =>
    if inode.nlink - 1 > 0 then
      { ns with inodes := ns.inodes.insert ino { inode with nlink := inode.nlink - 1 } }.markDirty ino
    else ns.remove ino

/-- Takes a name out of a directory and marks the directory dirty. -/
def removeName (parent : Ino) (name : String) (ns : Namespace) : Namespace :=
  { ns with
    dirs := update ns.dirs parent
      ((ns.dirs parent).map fun dir : DirectoryObject ↦ dir.filter (·.name ≠ name)) }.markDirty parent

def unlink (ns : Namespace) (parent : Ino) (name : String) : Except PoolError Namespace :=
  match ns.dirs parent with
  | none => .error (.notADirectory parent)
  | some dir =>
    match dir.find? (·.name = name) with
    | none => .error (.notFound name)
    | some entry =>
      if entry.kind = .directory then .error (.isADirectory entry.ino)
      else .ok ((ns.removeName parent name).releaseInodeRef entry.ino)

def rmdir (ns : Namespace) (parent : Ino) (name : String) : Except PoolError Namespace :=
  match ns.dirs parent with
  | none => .error (.notADirectory parent)
  | some dir =>
    match dir.find? (·.name = name) with
    | none => .error (.notFound name)
    | some entry =>
      if entry.kind ≠ .directory then .error (.notADirectory entry.ino)
      else
        match ns.dirs entry.ino with
        | none => .error (.noSuchInode entry.ino)
        | some target =>
          if target ≠ [] then .error (.notEmpty entry.ino)
          else .ok ((ns.removeName parent name).remove entry.ino)

def link (ns : Namespace) (ino newParent : Ino) (newName : String) :
    Except PoolError Namespace :=
  match ns.inodes.lookup ino with
  | none => .error (.noSuchInode ino)
  | some inode =>
    if inode.kind = .directory then .error (.isADirectory ino)
    else
      match ns.dirs newParent with
      | none => .error (.notADirectory newParent)
      | some dir =>
        if dir.any (·.name = newName) then .error (.alreadyExists newName)
        else
          let ns : Namespace :=
            { ns with inodes := ns.inodes.insert ino { inode with nlink := inode.nlink + 1 } }
          .ok ((ns.addEntry newParent ⟨newName, ino, inode.kind⟩).markDirty newParent |>.markDirty ino)

/-- Walks from a directory up to the root and says whether it meets `target`. The bound
is the source's guard against a cyclic parent map. -/
def walkReaches (ns : Namespace) (target : Ino) : Nat → Ino → Bool
  | 0, _ => false
  | bound + 1, walk =>
    if walk = target then true
    else if walk = rootDirIno then false
    else ns.walkReaches target bound ((ns.parents walk).getD rootDirIno)

/-- What stands in the way of replacing an existing destination. -/
def checkReplace (ns : Namespace) (source existing : DirEntry) (noReplace : Bool)
    (newName : String) : Except PoolError Unit :=
  if noReplace then .error (.alreadyExists newName)
  else
    match source.kind, existing.kind with
    | .directory, .directory =>
      if ((ns.dirs existing.ino).getD []) ≠ [] then .error (.notEmpty existing.ino) else .ok ()
    | .directory, _ => .error (.notADirectory existing.ino)
    | _, .directory => .error (.isADirectory existing.ino)
    | _, _ => .ok ()

/-- Takes the replaced destination, if there is one, out of the namespace. -/
def dropReplaced (newParent : Ino) (newName : String) (existing : Option DirEntry)
    (ns : Namespace) : Namespace :=
  match existing with
  | none => ns
  | some entry =>
    let ns := ns.removeName newParent newName
    if entry.kind = .directory then ns.remove entry.ino else ns.releaseInodeRef entry.ino

/-- Enters the moved name at its destination. -/
def enterMoved (newParent : Ino) (newName : String) (source : DirEntry) (ns : Namespace) :
    Namespace :=
  { ns.addEntry newParent ⟨newName, source.ino, source.kind⟩ with
    parents := update ns.parents source.ino (some newParent) }

def rename (ns : Namespace) (parent : Ino) (name : String) (newParent : Ino)
    (newName : String) (noReplace : Bool) : Except PoolError Namespace :=
  match ns.dirs parent, ns.dirs newParent with
  | none, _ => .error (.notADirectory parent)
  | some _, none => .error (.notADirectory newParent)
  | some dir, some newDir =>
    match dir.find? (·.name = name) with
    | none => .error (.notFound name)
    | some source =>
      if parent = newParent ∧ name = newName then .ok ns
      else if source.kind = .directory ∧
          ns.walkReaches source.ino (ns.inodes.toList.length + 1) newParent then
        .error (.invalidArgument "cannot move a directory into its own subtree")
      else
        let existing := newDir.find? (·.name = newName)
        let moved := (((ns.removeName parent name).dropReplaced newParent newName existing).enterMoved
          newParent newName source).markDirty parent |>.markDirty newParent |>.markDirty source.ino
        match existing with
        | none => .ok moved
        | some entry => (ns.checkReplace source entry noReplace newName).map fun _ ↦ moved

/-- The entry a directory holds under a name. -/
def entryAt (dirs : Ino → Option DirectoryObject) (place : Ino × String) : Option DirEntry :=
  (dirs place.1).bind fun dir : DirectoryObject ↦ dir.find? (·.name = place.2)

/-- The namespace after a rename that has passed its checks. -/
def moved (parent : Ino) (name : String) (newParent : Ino) (newName : String) (source : DirEntry)
    (ns : Namespace) : Namespace :=
  (((ns.removeName parent name).dropReplaced newParent newName
    (entryAt ns.dirs (newParent, newName))).enterMoved newParent newName source).markDirty parent
      |>.markDirty newParent |>.markDirty source.ino

section Outcomes

variable {ns ns' : Namespace} {ino parent newParent : Ino} {name newName : String}
  {dir : DirectoryObject}

theorem entryAt_of_dirs {dirs : Ino → Option DirectoryObject} (h : dirs parent = some dir) :
    entryAt dirs (parent, name) = dir.find? (·.name = name) := by
  simp [entryAt, h]

theorem unlink_ok (h : ns.unlink parent name = .ok ns') :
    ∃ entry, entryAt ns.dirs (parent, name) = some entry ∧ entry.kind ≠ .directory ∧
      ns' = (ns.removeName parent name).releaseInodeRef entry.ino := by
  unfold unlink at h
  split at h
  · simp at h
  · next hdir =>
    split at h
    · simp at h
    · next entry hentry =>
      split_ifs at h with hkind
      exact ⟨entry, (entryAt_of_dirs hdir).trans hentry, hkind, (Except.ok.inj h).symm⟩

theorem rmdir_ok (h : ns.rmdir parent name = .ok ns') :
    ∃ entry, entryAt ns.dirs (parent, name) = some entry ∧ entry.kind = .directory ∧
      ns.dirs entry.ino = some [] ∧ ns' = (ns.removeName parent name).remove entry.ino := by
  unfold rmdir at h
  split at h
  · simp at h
  · next hdir =>
    split at h
    · simp at h
    · next entry hentry =>
      split_ifs at h with hkind
      split at h
      · simp at h
      · next htarget =>
        split_ifs at h with hempty
        exact ⟨entry, (entryAt_of_dirs hdir).trans hentry, not_not.1 hkind,
          not_not.1 hempty ▸ htarget, (Except.ok.inj h).symm⟩

theorem find_eq_none_of_not_any (h : ¬(dir.any fun e ↦ decide (e.name = name)) = true) :
    dir.find? (·.name = name) = none := by
  simpa using h

theorem link_ok (h : ns.link ino newParent newName = .ok ns') :
    ∃ inode, ns.inodes.lookup ino = some inode ∧ inode.kind ≠ .directory ∧
      (ns.dirs newParent).isSome ∧ entryAt ns.dirs (newParent, newName) = none ∧ ns' = (({ ns with
        inodes := ns.inodes.insert ino { inode with nlink := inode.nlink + 1 } }.addEntry
          newParent ⟨newName, ino, inode.kind⟩).markDirty newParent).markDirty ino := by
  unfold link at h
  split at h
  · simp at h
  · next inode hinode =>
    split_ifs at h with hkind
    split at h
    · simp at h
    · next hdir =>
      split_ifs at h with hfree
      exact ⟨inode, hinode, hkind, by simp [hdir],
        (entryAt_of_dirs hdir).trans (find_eq_none_of_not_any hfree), (Except.ok.inj h).symm⟩

variable {kind : InodeKind} {target : String}

theorem createEntry_eq (h : ns.createEntry parent name kind target = .ok (ino, ns')) :
    (ns.dirs parent).isSome ∧ entryAt ns.dirs (parent, name) = none ∧ ino = ns.nextIno ∧
      ns' = (({ ns with
        nextIno := ns.nextIno + 1
        inodes := ns.inodes.insert ns.nextIno (newInode kind target)
        dirs := if kind = InodeKind.directory then update ns.dirs ns.nextIno (some []) else ns.dirs
        parents := update ns.parents ns.nextIno (some parent) }.addEntry
          parent ⟨name, ns.nextIno, kind⟩).markDirty parent).markDirty ns.nextIno := by
  unfold createEntry at h
  split at h
  · simp at h
  · next hdir =>
    split at h
    · simp at h
    · next hfree =>
      cases h
      exact ⟨by simp [hdir], (entryAt_of_dirs hdir).trans (find_eq_none_of_not_any hfree), rfl, rfl⟩

variable {noReplace : Bool}

theorem checkReplace_ok {source existing : DirEntry} {u : Unit}
    (h : ns.checkReplace source existing noReplace newName = .ok u)
    (hkind : existing.kind = .directory) : (ns.dirs existing.ino).getD [] = [] := by
  by_contra hne
  cases noReplace <;> cases hsource : source.kind <;>
    simp [checkReplace, hkind, hsource, hne] at h

theorem rename_ok (h : ns.rename parent name newParent newName noReplace = .ok ns') :
    ∃ source, entryAt ns.dirs (parent, name) = some source ∧ (ns.dirs newParent).isSome ∧
      (ns' = ns ∨ (newParent, newName) ≠ (parent, name) ∧ (source.kind = .directory →
          ns.walkReaches source.ino (ns.inodes.toList.length + 1) newParent = false) ∧
        (∀ existing, entryAt ns.dirs (newParent, newName) = some existing →
          existing.kind = .directory → (ns.dirs existing.ino).getD [] = []) ∧
        ns' = ns.moved parent name newParent newName source) := by
  unfold rename at h
  split at h
  · simp at h
  · simp at h
  · next newDir hdir hnewDir =>
    split at h
    · simp at h
    · next source hsource =>
      refine ⟨source, (entryAt_of_dirs hdir).trans hsource, by simp [hnewDir], ?_⟩
      split_ifs at h with hsame hwalk
      · exact .inl (Except.ok.inj h).symm
      · have hwalk' : source.kind = .directory →
            ns.walkReaches source.ino (ns.inodes.toList.length + 1) newParent = false :=
          fun hkind ↦ by simpa [hkind] using hwalk
        have hne : (newParent, newName) ≠ (parent, name) := fun heq ↦ by simp_all
        have hexisting : entryAt ns.dirs (newParent, newName) = newDir.find? (·.name = newName) :=
          entryAt_of_dirs hnewDir
        dsimp only at h
        refine .inr ⟨hne, hwalk', ?_⟩
        split at h
        · next hnone =>
          refine ⟨fun existing he ↦ by simp [hexisting, hnone] at he, ?_⟩
          rw [moved, hexisting, (Except.ok.inj h).symm]
        · next existing hsome =>
          cases hcheck : ns.checkReplace source existing noReplace newName with
          | error => simp [hcheck, Except.map] at h
          | ok =>
            rw [hcheck] at h
            refine ⟨fun existing' he hkind ↦ ?_, ?_⟩
            · obtain rfl : existing = existing' := by simpa [hexisting, hsome] using he
              exact checkReplace_ok hcheck hkind
            · rw [moved, hexisting]
              exact (Except.ok.inj h).symm

end Outcomes

/-- A change of names, by the parts it is made of. -/
inductive Edited (ns : Namespace) : Namespace → Prop
  | refl : Edited ns ns
  | mark {ns' : Namespace} (h : Edited ns ns') (ino : Ino) : Edited ns (ns'.markDirty ino)
  | setLinks {ns' : Namespace} {ino : Ino} {inode : InodeObject} (h : Edited ns ns')
      (hinode : ns'.inodes.lookup ino = some inode) (nlink : Nat) :
      Edited ns { ns' with inodes := ns'.inodes.insert ino { inode with nlink := nlink } }
  | removeName {ns' : Namespace} (h : Edited ns ns') (parent : Ino) (name : String) :
      Edited ns (ns'.removeName parent name)
  | remove {ns' : Namespace} (h : Edited ns ns') (ino : Ino) : Edited ns (ns'.remove ino)
  | enter {ns' : Namespace} {parents : Ino → Option Ino} {marked : List Ino} (h : Edited ns ns') (parent : Ino)
      (e : DirEntry) (hmarked : parent ∈ marked) (hdirty : ∀ i ∈ ns'.dirtyInodes, i ∈ marked) :
      Edited ns { ns'.addEntry parent e with parents := parents, dirtyInodes := marked }

/-- What a change of names may do to the inodes: links are counted and inodes removed, but
kinds, sizes and contents stay, no inode is added, and what was dirty stays dirty. -/
structure Edits (ns ns' : Namespace) : Prop where
  nextIno : ns'.nextIno = ns.nextIno
  generation : ns'.generation = ns.generation
  rootHash : ns'.rootHash = ns.rootHash
  inode : ∀ i x', ns'.inodes.lookup i = some x' → ∃ x, ns.inodes.lookup i = some x ∧
    x'.kind = x.kind ∧ x'.size = x.size ∧ x'.content = x.content
  dirty : ∀ i ∈ ns.dirtyInodes, (ns'.inodes.lookup i).isSome → i ∈ ns'.dirtyInodes

variable {ns ns' ns'' : Namespace} {ino parent newParent : Ino} {name newName : String}

namespace Edits

theorem refl (ns : Namespace) : ns.Edits ns :=
  ⟨rfl, rfl, rfl, fun _ x hx ↦ ⟨x, hx, rfl, rfl, rfl⟩, fun _ hi _ ↦ hi⟩

theorem isSome (h : ns.Edits ns') {i : Ino} (hi : (ns'.inodes.lookup i).isSome) :
    (ns.inodes.lookup i).isSome := by
  obtain ⟨x', hx'⟩ := Option.isSome_iff_exists.1 hi
  obtain ⟨x, hx, _⟩ := h.inode i x' hx'
  simp [hx]

theorem trans (h : ns.Edits ns') (h' : ns'.Edits ns'') : ns.Edits ns'' where
  nextIno := h'.nextIno.trans h.nextIno
  generation := h'.generation.trans h.generation
  rootHash := h'.rootHash.trans h.rootHash
  inode i x'' hx'' := by
    obtain ⟨x', hx', hkind', hsize', hcontent'⟩ := h'.inode i x'' hx''
    obtain ⟨x, hx, hkind, hsize, hcontent⟩ := h.inode i x' hx'
    exact ⟨x, hx, hkind'.trans hkind, hsize'.trans hsize, hcontent'.trans hcontent⟩
  dirty i hi hsome := h'.dirty i (h.dirty i hi (h'.isSome hsome)) hsome

theorem markDirty (ns : Namespace) (ino : Ino) : ns.Edits (ns.markDirty ino) :=
  ⟨rfl, rfl, rfl, fun _ x hx ↦ ⟨x, hx, rfl, rfl, rfl⟩, fun _ hi _ ↦ mem_insert_iff.2 (.inr hi)⟩

theorem remove (ns : Namespace) (ino : Ino) : ns.Edits (ns.remove ino) := by
  refine ⟨rfl, rfl, rfl, fun i x hx ↦ ?_, fun i hi hsome ↦ ?_⟩
  · exact ⟨x, (of_lookup_erase hx).2, rfl, rfl, rfl⟩
  · obtain ⟨x, hx⟩ := Option.isSome_iff_exists.1 hsome
    exact mem_filter.2 ⟨hi, by simpa using (of_lookup_erase hx).1⟩

/-- A new link count. -/
theorem insertLink {inode : InodeObject} (h : ns.inodes.lookup ino = some inode) (nlink : Nat) :
    ns.Edits { ns with inodes := ns.inodes.insert ino { inode with nlink := nlink } } := by
  refine ⟨rfl, rfl, rfl, fun i x hx ↦ ?_, fun _ hi _ ↦ hi⟩
  rcases of_lookup_insert hx with ⟨rfl, rfl⟩ | ⟨-, hx⟩
  · exact ⟨inode, h, rfl, rfl, rfl⟩
  · exact ⟨x, hx, rfl, rfl, rfl⟩

theorem removeName (ns : Namespace) (parent : Ino) (name : String) :
    ns.Edits (ns.removeName parent name) :=
  ⟨rfl, rfl, rfl, fun _ x hx ↦ ⟨x, hx, rfl, rfl, rfl⟩, fun _ hi _ ↦ mem_insert_iff.2 (.inr hi)⟩

theorem of_edited (h : ns.Edited ns') : ns.Edits ns' := by
  induction h with
  | refl => exact .refl ns
  | mark _ ino ih => exact ih.trans (.markDirty _ ino)
  | setLinks _ hinode nlink ih => exact ih.trans (.insertLink hinode nlink)
  | removeName _ parent name ih => exact ih.trans (.removeName _ parent name)
  | remove _ ino ih => exact ih.trans (.remove _ ino)
  | enter _ _ _ _ hdirty ih => exact ih.trans ⟨rfl, rfl, rfl, fun _ x hx ↦ ⟨x, hx, rfl, rfl, rfl⟩, fun i hi _ ↦ hdirty i hi⟩

end Edits

theorem mem_markDirty {d : Ino} (h : d ∈ ns.dirtyInodes) : d ∈ (ns.markDirty ino).dirtyInodes :=
  mem_insert_iff.2 (.inr h)

theorem mem_markDirty_self (ns : Namespace) : ino ∈ (ns.markDirty ino).dirtyInodes :=
  mem_insert_iff.2 (.inl rfl)

namespace Edited

theorem releaseInodeRef (h : ns.Edited ns') (ino : Ino) : ns.Edited (ns'.releaseInodeRef ino) := by
  unfold Namespace.releaseInodeRef
  split
  · exact h
  · next hinode =>
    split_ifs
    · exact (h.setLinks hinode _).mark ino
    · exact h.remove ino

theorem unlink (h : ns.unlink parent name = .ok ns') : ns.Edited ns' := by
  obtain ⟨_, _, _, rfl⟩ := unlink_ok h
  exact (Edited.refl.removeName parent name).releaseInodeRef _

theorem rmdir (h : ns.rmdir parent name = .ok ns') : ns.Edited ns' := by
  obtain ⟨_, _, _, _, rfl⟩ := rmdir_ok h
  exact (Edited.refl.removeName parent name).remove _

theorem link (h : ns.link ino newParent newName = .ok ns') : ns.Edited ns' := by
  obtain ⟨_, hinode, _, _, _, rfl⟩ := link_ok h
  exact (Edited.refl.setLinks hinode _).enter newParent _ (mem_markDirty (mem_markDirty_self _))
    fun _ hi ↦ mem_markDirty (mem_markDirty hi)

theorem rename (h : ns.rename parent name newParent newName noReplace = .ok ns') : ns.Edited ns' := by
  obtain ⟨_, _, _, rfl | ⟨_, _, _, rfl⟩⟩ := rename_ok h
  · exact .refl
  have hremove : ns.Edited (ns.removeName parent name) := Edited.refl.removeName parent name
  have hdrop : ns.Edited ((ns.removeName parent name).dropReplaced newParent newName
      (entryAt ns.dirs (newParent, newName))) := by
    unfold dropReplaced
    split
    · exact hremove
    · dsimp only
      split_ifs
      · exact (hremove.removeName newParent newName).remove _
      · exact (hremove.removeName newParent newName).releaseInodeRef _
  exact hdrop.enter newParent _ (mem_markDirty (mem_markDirty_self _))
    fun _ hi ↦ mem_markDirty (mem_markDirty (mem_markDirty hi))

end Edited

/-- A new entry takes the next inode number, under an inode that is dirty. -/
theorem createEntry_ok (h : ns.createEntry parent name kind target = .ok (ino, ns')) :
    ino = ns.nextIno ∧ ns'.nextIno = ns.nextIno + 1 ∧ ns'.generation = ns.generation ∧
      (∀ i, ns'.inodes.lookup i =
        if i = ino then some (newInode kind target) else ns.inodes.lookup i) ∧
      ino ∈ ns'.dirtyInodes ∧ ∀ i ∈ ns.dirtyInodes, i ∈ ns'.dirtyInodes := by
  obtain ⟨_, _, rfl, rfl⟩ := createEntry_eq h
  refine ⟨rfl, rfl, rfl, fun i ↦ lookup_insert_eq _ _ _ _, ?_, fun i hi ↦ ?_⟩
  · simp [markDirty]
  · simp [markDirty, addEntry, hi]

end Namespace

end Lchfs.Store
