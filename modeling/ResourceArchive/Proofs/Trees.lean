import ResourceArchive.Proofs.Extraction
import ResourceArchive.Proofs.Files
import ResourceArchive.Proofs.Naming

/-! Trees of files and directories. A walk through such a tree that meets nothing unreadable meets each of
    its files, by the way to it, and nothing else; and whatever is read at the end of a way is the file that
    the tree has there. -/

namespace ResourceArchive

namespace Node

variable {n m : Node} {entries : List (Bytes × Node)} {name : Bytes} {way rest : Place} {id : FileId}

/-! ### Plain trees -/

mutual

/-- A tree of files and directories, in which all names are texts and no two in a directory are the
    same. -/
def IsPlain : Node → Prop
  | directory entries => (entries.map Prod.fst).Nodup ∧ ArePlain entries
  | file _ => True
  | link _ => False
termination_by structural n => n

/-- Entries that lead to such trees. -/
def ArePlain : List (Bytes × Node) → Prop
  | [] => True
  | (name, child) :: rest => IsTextName name ∧ child.IsPlain ∧ ArePlain rest
termination_by structural entries => entries

end

theorem arePlain_iff : ArePlain entries ↔ ∀ e ∈ entries, IsTextName e.1 ∧ e.2.IsPlain := by
  induction entries with
  | nil => simp [ArePlain]
  | cons e rest ih =>
    rw [ArePlain, ih, List.forall_mem_cons, and_assoc]

theorem child?_of_mem (distinct : (entries.map Prod.fst).Nodup) (listed : (name, m) ∈ entries) :
    (directory entries).child? name = some m := by
  obtain ⟨before, after, rfl⟩ := List.append_of_mem listed
  rw [child?, List.lookup_eq_some_iff]
  refine ⟨before, after, rfl, fun e he => ?_⟩
  rw [bne_iff_ne]
  rintro rfl
  rw [List.map_append, List.nodup_append] at distinct
  exact distinct.2.2 _ (List.mem_map_of_mem he) _ (.head _) rfl

theorem IsPlain.child? (plain : n.IsPlain) (held : n.child? name = some m) :
    IsTextName name ∧ m.IsPlain := by
  cases n with
  | directory entries => exact arePlain_iff.1 plain.2 _ (mem_of_child? held)
  | file => cases held
  | link => cases held

end Node

namespace FileSystem

open ResourceArchive.Path (Step)
open Node (IsPlain ArePlain arePlain_iff)

variable {fs : FileSystem} {p path : Path} {n tree : Node} {entries : List (Bytes × Node)}
  {met : Path} {place way : Place} {id : FileId}

/-! ### Walking through a tree -/

mutual

/-- What a walk meets in a plain tree are files of the tree. -/
theorem file_of_mem_sightings : ∀ (n : Node) (path : Path), n.IsPlain → .ok met ∈ sightings path n →
    ∃ way id, met = path.along way ∧ n.at? way = some (.file id)
  | .file id, path, _, h => by
    have h : Except.ok met ∈ [Except.ok path] := h
    rw [List.mem_singleton, Except.ok.injEq] at h
    exact ⟨[], id, h, rfl⟩
  | .link _, _, plain, _ => plain.elim
  | .directory entries, path, plain, h => by
    rw [sightings] at h
    split at h
    · simp at h
    · obtain ⟨name, child, way, id, listed, same, held⟩ := file_of_mem_entrySightings entries path plain.2 h
      refine ⟨name :: way, id, same, ?_⟩
      rw [Node.at?_cons, Node.child?_of_mem plain.1 listed, Option.bind_some, held]
termination_by structural n => n

theorem file_of_mem_entrySightings : ∀ (entries : List (Bytes × Node)) (path : Path), ArePlain entries →
    .ok met ∈ entrySightings path entries →
      ∃ name child way id, (name, child) ∈ entries ∧ met = path.along (name :: way)
        ∧ child.at? way = some (.file id)
  | [], _, _, h => by cases h
  | (name, child) :: rest, path, plain, h => by
    rw [entrySightings, List.mem_append] at h
    rcases h with first | later
    · obtain ⟨way, id, same, held⟩ := file_of_mem_sightings child (path.join ⟨name⟩) plain.2.1 first
      exact ⟨name, child, way, id, .head _, same, held⟩
    · obtain ⟨name, child, way, id, listed, same, held⟩ :=
        file_of_mem_entrySightings rest path plain.2.2 later
      exact ⟨name, child, way, id, .tail _ listed, same, held⟩
termination_by structural entries => entries

end

/-- The tree of a directory to which a path leads. A directory that was removed is empty. -/
def TreeAt (fs : FileSystem) (p : Path) (tree : Node) : Prop :=
  ∃ pos, fs.locate .look p = .ok pos ∧ pos.node.isDirectory
    ∧ tree = if pos.removed = 0 then pos.node else .empty

theorem TreeAt.isDirectory (holds : fs.TreeAt p tree) : tree.isDirectory := by
  obtain ⟨pos, -, directory, rfl⟩ := holds
  split
  · exact directory
  · rfl

end FileSystem

end ResourceArchive
