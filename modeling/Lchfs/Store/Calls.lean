import Lchfs.Store.Namespace

/-!
# The namespace calls as the source runs them

The calls mutate the namespace under its lock, statement by statement, and may return in
between. `NamespaceM` keeps what a call has written when it returns an error. Each call is
shown to be the function of the same name on namespaces: its result and namespace when the
function succeeds, and the error with the namespace as it was when it does not.
-/

namespace Lchfs.Store

open Lchfs.Format Lchfs.Library

/-- A call on the namespace: an error or a result, and the namespace it leaves either way. -/
abbrev NamespaceM (α : Type) := ExceptT PoolError (StateM Namespace) α

/-- What a call returns and leaves behind. -/
def NamespaceM.exec {α : Type} (call : NamespaceM α) (ns : Namespace) :
    Except PoolError α × Namespace :=
  Id.run (StateT.run (ExceptT.run call) ns)

namespace Namespace

/-- `create_entry` -/
def createEntryCall (parent : Ino) (name : String) (kind : InodeKind) (symlinkTarget : String) :
    NamespaceM Ino := do
  match (← get).dirs parent with
  | none => throw (.notADirectory parent)
  | some dir =>
    if dir.any (·.name = name) then throw (.alreadyExists name)
    let ino := (← get).nextIno
    modify fun ns ↦ { ns with nextIno := ino + 1 }
    modify fun ns ↦ { ns with inodes := ns.inodes.insert ino (newInode kind symlinkTarget) }
    if kind = .directory then
      modify fun ns ↦ { ns with dirs := Function.update ns.dirs ino (some []) }
    modify (addEntry parent ⟨name, ino, kind⟩)
    modify fun ns ↦ { ns with parents := Function.update ns.parents ino (some parent) }
    modify (markDirty parent)
    modify (markDirty ino)
    return ino

/-- `unlink` -/
def unlinkCall (parent : Ino) (name : String) : NamespaceM Unit := do
  match (← get).dirs parent with
  | none => throw (.notADirectory parent)
  | some dir =>
    match dir.find? (·.name = name) with
    | none => throw (.notFound name)
    | some entry =>
      if entry.kind = .directory then throw (.isADirectory entry.ino)
      modify (removeName parent name)
      modify (releaseInodeRef entry.ino)

/-- `rmdir` -/
def rmdirCall (parent : Ino) (name : String) : NamespaceM Unit := do
  match (← get).dirs parent with
  | none => throw (.notADirectory parent)
  | some dir =>
    match dir.find? (·.name = name) with
    | none => throw (.notFound name)
    | some entry =>
      if entry.kind ≠ .directory then throw (.notADirectory entry.ino)
      match (← get).dirs entry.ino with
      | none => throw (.noSuchInode entry.ino)
      | some target =>
        if target ≠ [] then throw (.notEmpty entry.ino)
        modify (removeName parent name)
        modify (remove entry.ino)

/-- `link` -/
def linkCall (ino newParent : Ino) (newName : String) : NamespaceM Unit := do
  match (← get).inodes.lookup ino with
  | none => throw (.noSuchInode ino)
  | some inode =>
    if inode.kind = .directory then throw (.isADirectory ino)
    match (← get).dirs newParent with
    | none => throw (.notADirectory newParent)
    | some dir =>
      if dir.any (·.name = newName) then throw (.alreadyExists newName)
      modify fun ns ↦
        { ns with inodes := ns.inodes.insert ino { inode with nlink := inode.nlink + 1 } }
      modify (addEntry newParent ⟨newName, ino, inode.kind⟩)
      modify (markDirty newParent)
      modify (markDirty ino)

/-- `rename` -/
def renameCall (parent : Ino) (name : String) (newParent : Ino) (newName : String)
    (noReplace : Bool) : NamespaceM Unit := do
  match (← get).dirs parent, (← get).dirs newParent with
  | none, _ => throw (.notADirectory parent)
  | some _, none => throw (.notADirectory newParent)
  | some dir, some newDir =>
    match dir.find? (·.name = name) with
    | none => throw (.notFound name)
    | some source =>
      if parent = newParent ∧ name = newName then return ()
      let ns ← get
      if source.kind = .directory ∧
          ns.walkReaches source.ino (ns.inodes.toList.length + 1) newParent then
        throw (.invalidArgument "cannot move a directory into its own subtree")
      let existing := newDir.find? (·.name = newName)
      match existing with
      | none => pure ()
      | some entry => liftExcept (ns.checkReplace source entry noReplace newName)
      modify (removeName parent name)
      modify (dropReplaced newParent newName existing)
      modify (enterMoved newParent newName source)
      modify (markDirty parent)
      modify (markDirty newParent)
      modify (markDirty source.ino)

section Execution

variable {α : Type} (ns : Namespace) {ino parent newParent : Ino} {name newName : String}

/-- What a call leaves behind, given what the function on namespaces returns. -/
def outcome (result : Except PoolError (α × Namespace)) : Except PoolError α × Namespace :=
  match result with
  | .ok (a, ns') => (.ok a, ns')
  | .error e => (.error e, ns)

theorem exec_bind {β : Type} (call : NamespaceM α) (next : α → NamespaceM β) :
    NamespaceM.exec (call >>= next) ns = match call.exec ns with
      | (.ok a, ns') => (next a).exec ns'
      | (.error e, ns') => (.error e, ns') := by
  unfold NamespaceM.exec
  rw [ExceptT.run_bind, StateT.run_bind]
  rcases (ExceptT.run call).run ns with ⟨e | a, ns'⟩ <;> rfl

theorem exec_get_bind (next : Namespace → NamespaceM α) :
    NamespaceM.exec (get >>= next) ns = NamespaceM.exec (next ns) ns :=
  rfl

theorem exec_createEntryCall (kind : InodeKind) (target : String) :
    (createEntryCall parent name kind target).exec ns =
      ns.outcome (ns.createEntry parent name kind target) := by
  unfold createEntryCall createEntry
  rw [exec_get_bind]
  cases hdir : ns.dirs parent with
  | none => rfl
  | some dir =>
    by_cases hname : dir.any (·.name = name)
    · simp only [hname, if_true]
      rfl
    · by_cases hkind : kind = .directory <;> simp only [hname, hkind, if_true, if_false] <;> rfl

theorem exec_unlinkCall :
    (unlinkCall parent name).exec ns = ns.outcome ((ns.unlink parent name).map ((), ·)) := by
  unfold unlinkCall unlink
  rw [exec_get_bind]
  cases hdir : ns.dirs parent with
  | none => rfl
  | some dir =>
    dsimp only
    cases hfind : dir.find? (·.name = name) with
    | none => rfl
    | some entry =>
      by_cases hkind : entry.kind = .directory <;> simp only [hkind, if_true, if_false] <;> rfl

theorem exec_rmdirCall :
    (rmdirCall parent name).exec ns = ns.outcome ((ns.rmdir parent name).map ((), ·)) := by
  unfold rmdirCall rmdir
  rw [exec_get_bind]
  cases hdir : ns.dirs parent with
  | none => rfl
  | some dir =>
    dsimp only
    cases hfind : dir.find? (·.name = name) with
    | none => rfl
    | some entry =>
      by_cases hkind : entry.kind = .directory
      · simp only [hkind, ne_eq, not_true_eq_false, if_false, exec_get_bind]
        cases htarget : ns.dirs entry.ino with
        | none => rfl
        | some target =>
          by_cases hempty : target = [] <;>
            simp only [hempty, not_true_eq_false, not_false_eq_true, if_true, if_false] <;> rfl
      · simp only [hkind, ne_eq, not_false_eq_true, if_true]
        rfl

theorem exec_linkCall : (linkCall ino newParent newName).exec ns =
      ns.outcome ((ns.link ino newParent newName).map ((), ·)) := by
  unfold linkCall link
  rw [exec_get_bind]
  cases hinode : ns.inodes.lookup ino with
  | none => rfl
  | some inode =>
    by_cases hkind : inode.kind = .directory
    · simp only [hkind, if_true]
      rfl
    · simp only [hkind, if_false, exec_get_bind]
      cases hdir : ns.dirs newParent with
      | none => rfl
      | some dir =>
        by_cases hname : dir.any (·.name = newName) <;>
          simp only [hname, if_true] <;> rfl

theorem exec_renameCall (noReplace : Bool) :
    (renameCall parent name newParent newName noReplace).exec ns =
      ns.outcome ((ns.rename parent name newParent newName noReplace).map ((), ·)) := by
  unfold renameCall rename
  rw [exec_get_bind, exec_get_bind]
  cases hdir : ns.dirs parent with
  | none => rfl
  | some dir =>
    cases hnewDir : ns.dirs newParent with
    | none => rfl
    | some newDir =>
      dsimp only
      cases hsource : dir.find? (·.name = name) with
      | none => rfl
      | some source =>
        by_cases hsame : parent = newParent ∧ name = newName
        · simp only [hsame, and_self, if_true]
          rfl
        · simp only [hsame, if_false, exec_get_bind]
          by_cases hwalk : source.kind = .directory ∧
              ns.walkReaches source.ino (ns.inodes.toList.length + 1) newParent
          · simp only [hwalk, and_self, if_true]
            rfl
          · simp only [hwalk, if_false]
            cases hexisting : newDir.find? (·.name = newName) with
            | none => rfl
            | some entry =>
              dsimp only
              cases hcheck : ns.checkReplace source entry noReplace newName <;> rfl

end Execution

/-- A call on the namespace with its arguments. -/
inductive Call
  | createEntry (parent : Ino) (name : String) (kind : InodeKind) (symlinkTarget : String)
  | unlink (parent : Ino) (name : String)
  | rmdir (parent : Ino) (name : String)
  | link (ino newParent : Ino) (newName : String)
  | rename (parent : Ino) (name : String) (newParent : Ino) (newName : String) (noReplace : Bool)

/-- The call's code; a new entry's number is dropped. -/
def Call.code : Call → NamespaceM Unit
  | .createEntry parent name kind target => do
    let _ ← createEntryCall parent name kind target
  | .unlink parent name => unlinkCall parent name
  | .rmdir parent name => rmdirCall parent name
  | .link ino newParent newName => linkCall ino newParent newName
  | .rename parent name newParent newName noReplace =>
    renameCall parent name newParent newName noReplace

/-- What the functions on namespaces return for the call. -/
def Call.result (ns : Namespace) : Call → Except PoolError Namespace
  | .createEntry parent name kind target => (ns.createEntry parent name kind target).map (·.2)
  | .unlink parent name => ns.unlink parent name
  | .rmdir parent name => ns.rmdir parent name
  | .link ino newParent newName => ns.link ino newParent newName
  | .rename parent name newParent newName noReplace =>
    ns.rename parent name newParent newName noReplace

theorem Call.exec_code (ns : Namespace) (call : Call) :
    call.code.exec ns = ns.outcome ((call.result ns).map ((), ·)) := by
  cases call with
  | createEntry parent name kind target =>
    rw [Call.code, exec_bind, exec_createEntryCall, Call.result]
    cases ns.createEntry parent name kind target <;> rfl
  | unlink => exact exec_unlinkCall ns
  | rmdir => exact exec_rmdirCall ns
  | link => exact exec_linkCall ns
  | rename _ _ _ _ noReplace => exact exec_renameCall ns noReplace

/-- The namespace after a list of calls, whatever each of them returns. -/
def runCalls (ns : Namespace) (calls : List Call) : Namespace :=
  calls.foldl (fun ns call ↦ (call.code.exec ns).2) ns

end Namespace

end Lchfs.Store
