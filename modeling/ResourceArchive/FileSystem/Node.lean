import ResourceArchive.Path

/-! What a file system consists of: a tree of directories, with files and links at its ends. The entries
    of a directory are in the order of their names. Main statements: what was put at a place is there,
    what is in another part of the tree stays, and no other files come with it. -/

namespace ResourceArchive

/-- Where something is: the names from the root down, without links. -/
abbrev Place := List Bytes

/-- Which file, wherever it is. -/
abbrev FileId := Nat

inductive Node where
  | directory (entries : List (Bytes × Node))
  | file (id : FileId)
  | link (target : Path)
  deriving Inhabited

namespace Node

def empty : Node := directory []

def isDirectory : Node → Bool
  | directory _ => true
  | _ => false

/-- What has a name in a directory. -/
def child? (n : Node) (name : Bytes) : Option Node :=
  match n with
  | directory entries => entries.lookup name
  | _ => none

/-- What is at a place below a node. -/
def at? (n : Node) : Place → Option Node
  | [] => some n
  | name :: rest =>
    match n.child? name with
    | some child => child.at? rest
    | none => none

/-- Enters something under a name, in place of what has that name. -/
def insertEntry (name : Bytes) (node : Node) : List (Bytes × Node) → List (Bytes × Node)
  | [] => [(name, node)]
  | (other, old) :: rest =>
    match compare name other with
    | .lt => (name, node) :: (other, old) :: rest
    | .eq => (name, node) :: rest
    | .gt => (other, old) :: insertEntry name node rest

/-- Puts something at a place, in place of what is there. -/
def put (n : Node) (place : Place) (new : Node) : Node :=
  match place, n with
  | [], _ => new
  | name :: rest, directory entries =>
    directory (insertEntry name (((entries.lookup name).getD empty).put rest new) entries)
  | _ :: _, n => n
termination_by structural place

/-- Takes away what is at a place, with all below it. -/
def erase (n : Node) (place : Place) : Node :=
  match place, n with
  | [name], directory entries => directory (entries.filter (·.1 != name))
  | name :: rest, directory entries =>
    match entries.lookup name with
    | some child => directory (insertEntry name (child.erase rest) entries)
    | none => directory entries
  | _, n => n
termination_by structural place

mutual

/-- All below a node, seen from there: in the order of the names, and the content of a directory right
    after the directory. -/
def descendants : Node → List (Place × Node)
  | directory entries => reached entries
  | _ => []
termination_by structural n => n

/-- All that entries lead to. -/
def reached : List (Bytes × Node) → List (Place × Node)
  | [] => []
  | (name, child) :: rest =>
    ([name], child) :: child.descendants.map (fun (place, node) => (name :: place, node))
      ++ reached rest
termination_by structural entries => entries

end

mutual

/-- The files in a tree. -/
def fileIds : Node → List FileId
  | directory entries => entryFileIds entries
  | file id => [id]
  | link _ => []
termination_by structural n => n

/-- The files to which entries lead. -/
def entryFileIds : List (Bytes × Node) → List FileId
  | [] => []
  | (_, child) :: rest => child.fileIds ++ entryFileIds rest
termination_by structural entries => entries

end

theorem lookup_insertEntry (name other : Bytes) (node : Node) (entries : List (Bytes × Node)) :
    (insertEntry name node entries).lookup other
      = if other = name then some node else entries.lookup other := by
  by_cases h : other = name
  · subst h
    rw [if_pos rfl]
    induction entries with
    | nil => simp [insertEntry]
    | cons e rest ih =>
      obtain ⟨first, old⟩ := e
      rw [insertEntry]
      rcases hc : compare other first
      · simp
      · simp
      · have hne : (other == first) = false := beq_false_of_ne fun h => by simp [h] at hc
        rw [List.lookup_cons, hne, ih]
  · have hne : (other == name) = false := beq_false_of_ne h
    rw [if_neg h]
    induction entries with
    | nil => simp [insertEntry, List.lookup_cons, hne]
    | cons e rest ih =>
      obtain ⟨first, old⟩ := e
      rw [insertEntry]
      rcases hc : compare name first
      · rw [List.lookup_cons, hne]
      · have := Std.LawfulEqOrd.eq_of_compare hc
        subst this
        rw [List.lookup_cons, List.lookup_cons, hne]
      · rw [List.lookup_cons, List.lookup_cons, ih]

theorem mem_of_child? {entries : List (Bytes × Node)} {name : Bytes} {m : Node}
    (held : (directory entries).child? name = some m) : (name, m) ∈ entries := by
  obtain ⟨before, after, rfl, -⟩ := List.lookup_eq_some_iff.1 held
  simp

@[simp] theorem fileIds_empty : empty.fileIds = [] := rfl

@[simp] theorem fileIds_link (target : Path) : (link target).fileIds = [] := rfl

theorem mem_fileIds_directory {entries : List (Bytes × Node)} {id : FileId} :
    id ∈ (directory entries).fileIds ↔ ∃ e ∈ entries, id ∈ e.2.fileIds := by
  show id ∈ entryFileIds entries ↔ _
  induction entries with
  | nil => simp [entryFileIds]
  | cons e rest ih =>
    obtain ⟨name, child⟩ := e
    simp only [entryFileIds, List.mem_append, ih, List.mem_cons, exists_eq_or_imp]

theorem fileIds_child? {n m : Node} {name : Bytes} (held : n.child? name = some m) :
    m.fileIds ⊆ n.fileIds := by
  intro id hid
  cases n with
  | directory entries => exact mem_fileIds_directory.2 ⟨_, mem_of_child? held, hid⟩
  | _ => cases held

theorem mem_of_mem_insertEntry {name : Bytes} {node : Node} {entries : List (Bytes × Node)}
    {e : Bytes × Node} (h : e ∈ insertEntry name node entries) : e = (name, node) ∨ e ∈ entries := by
  induction entries with
  | nil => simpa [insertEntry] using h
  | cons first rest ih =>
    obtain ⟨other, old⟩ := first
    rw [insertEntry] at h
    split at h
    · simpa using h
    · rcases List.mem_cons.1 h with rfl | h
      · exact .inl rfl
      · exact .inr (.tail _ h)
    · rcases List.mem_cons.1 h with rfl | h
      · exact .inr (.head _)
      · exact (ih h).imp_right (.tail _)

/-- The files in a tree into which something was put were there before, or are of what was put. -/
theorem mem_fileIds_put {n new : Node} {place : Place} {id : FileId}
    (h : id ∈ (n.put place new).fileIds) : id ∈ n.fileIds ∨ id ∈ new.fileIds := by
  induction place generalizing n with
  | nil => cases n <;> exact .inr h
  | cons name place ih =>
    cases n with
    | directory entries =>
      rw [put, mem_fileIds_directory] at h
      obtain ⟨e, he, h⟩ := h
      rcases mem_of_mem_insertEntry he with rfl | he
      · refine (ih h).imp_left fun h => ?_
        rcases held : entries.lookup name with _ | child
        · rw [held] at h
          cases h
        · rw [held] at h
          exact fileIds_child? (n := directory entries) held h
      · exact .inl (mem_fileIds_directory.2 ⟨e, he, h⟩)
    | _ => exact .inl h

/-- Taking something away brings no files. -/
theorem fileIds_erase (n : Node) (place : Place) : (n.erase place).fileIds ⊆ n.fileIds := by
  intro id h
  induction place generalizing n with
  | nil => cases n <;> exact h
  | cons name place ih =>
    cases n with
    | directory entries =>
      cases place with
      | nil =>
        rw [erase, mem_fileIds_directory] at h
        obtain ⟨e, he, h⟩ := h
        exact mem_fileIds_directory.2 ⟨e, (List.mem_filter.1 he).1, h⟩
      | cons second place =>
        rw [erase] at h
        split at h
        · next child held =>
          rw [mem_fileIds_directory] at h
          obtain ⟨e, he, h⟩ := h
          rcases mem_of_mem_insertEntry he with rfl | he
          · exact fileIds_child? (n := directory entries) held (ih child h)
          · exact mem_fileIds_directory.2 ⟨e, he, h⟩
        · exact h
        · simp
    | _ => cases place <;> exact h

theorem at?_cons (n : Node) (name : Bytes) (place : Place) :
    n.at? (name :: place) = (n.child? name).bind (·.at? place) := by
  rw [at?]; split <;> simp_all

theorem fileIds_at? {n m : Node} {place : Place} (held : n.at? place = some m) :
    m.fileIds ⊆ n.fileIds := by
  induction place generalizing n with
  | nil =>
    cases held
    exact List.Subset.refl _
  | cons name place ih =>
    rw [at?_cons, Option.bind_eq_some_iff] at held
    obtain ⟨child, there, held⟩ := held
    exact List.Subset.trans (ih held) (fileIds_child? there)

theorem at?_empty_cons (name : Bytes) (place : Place) : empty.at? (name :: place) = none := rfl

/-- What was put at a place is there, if the way to it leads through directories. -/
theorem at?_put_append (n new : Node) (place rest : Place)
    (way : ∀ front back, place = front ++ back → back ≠ [] →
      ∀ m, n.at? front = some m → m.isDirectory) :
    (n.put place new).at? (place ++ rest) = new.at? rest := by
  induction place generalizing n with
  | nil => cases n <;> rfl
  | cons name place ih =>
    cases n with
    | directory entries =>
      rw [put, List.cons_append, at?_cons, child?, lookup_insertEntry, if_pos rfl]
      refine ih _ fun front back h hback m hm => ?_
      cases hl : entries.lookup name with
      | some child =>
        rw [hl] at hm
        exact way (name :: front) back (by rw [h]; rfl) hback m (by
          rw [at?_cons, child?, hl]; exact hm)
      | none =>
        rw [hl] at hm
        cases front with
        | nil => cases hm; rfl
        | cons => cases hm
    | _ => exact absurd (way [] _ rfl (by simp) _ rfl) (by simp [isDirectory])

/-- What is neither at the place, nor above it, nor below it stays. -/
theorem at?_put_of_not_prefix (n new : Node) (place other : Place)
    (above : ¬other <+: place) (below : ¬place <+: other) :
    (n.put place new).at? other = n.at? other := by
  induction place generalizing n other with
  | nil => exact absurd (List.nil_prefix) below
  | cons name place ih =>
    cases other with
    | nil => exact absurd (List.nil_prefix) above
    | cons first other =>
      cases n with
      | directory entries =>
        rw [put, at?_cons, at?_cons, child?, child?, lookup_insertEntry]
        by_cases h : first = name
        · subst h
          rw [List.prefix_cons_inj] at above below
          rw [if_pos rfl, Option.bind_some, ih _ _ above below]
          cases hl : entries.lookup first with
          | some child => rfl
          | none =>
            cases other with
            | nil => exact absurd (List.nil_prefix) above
            | cons => rfl
        · rw [if_neg h]
      | _ => rfl

end Node

end ResourceArchive
