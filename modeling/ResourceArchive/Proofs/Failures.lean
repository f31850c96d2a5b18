import ResourceArchive.Command.Outcome
import ResourceArchive.Proofs.Layout

/-! Failures that are not about names. The names of a draft can be stored, so that what stands in the way of
    its layout is never a name: something is too large, or no seed tells some names apart. Two failures
    with messages that differ somewhere are reported differently. -/

namespace ResourceArchive

/-- Whether an error says that something is too large, or that names cannot be told apart. -/
def Error.OfSize : Error → Prop
  | .tooLarge _ | .noSeed .. => True
  | _ => False

theorem Assignment.ofSize_of_build {names : List Bytes} {size : Nat} {maxSeed : Int32} {e : Error}
    (h : build names size maxSeed = .error e) : e.OfSize := by
  have groups {p : Progress} {gs : List (Nat × List Entry)} {e : Error}
      (h : gs.foldlM (Progress.placeGroup maxSeed.toInt.toNat) p = .error e) : e.OfSize := by
    induction gs generalizing p with
    | nil => cases h
    | cons g gs ih =>
      rw [List.foldlM_cons, bind_eq_error] at h
      rcases h with first | ⟨q, -, rest⟩
      · rw [Progress.placeGroup] at first
        split at first
        · cases first
          trivial
        · cases first
      · exact ih rest
  have singles {p : Progress} {slot : Nat} {gs : List (Nat × Nat)} {e : Error}
      (h : p.placeSingles slot gs = .error e) : e.OfSize := by
    induction gs generalizing p slot with
    | nil => cases h
    | cons g gs ih =>
      rw [Progress.placeSingles] at h
      split at h
      · cases h
        trivial
      · exact ih h
  rw [build] at h
  split at h
  · cases h
    trivial
  split at h
  · cases h
    trivial
  rw [bind_eq_error] at h
  rcases h with first | ⟨p, -, h⟩
  · exact groups first
  · rw [bind_eq_error] at h
    rcases h with second | ⟨q, -, h⟩
    · exact singles second
    · cases h

theorem Options.ofSize_of_bucketCount {o : Options} {n : Nat} {e : Error}
    (h : o.bucketCount n = .error e) : e.OfSize := by
  rw [bucketCount] at h
  split at h
  · cases h
  split at h
  · cases h
    trivial
  · split at h
    · cases h
      trivial
    · cases h

/-- The parts of a name that can be stored have no NUL. -/
theorem NameParts.no_nul_of_split {name : String} {p : NameParts} (h : split name = .ok p) :
    ∀ part ∈ [p.module, p.parent, p.base, p.extension], 0 ∉ utf8 part := by
  have clean : '\x00' ∉ p.fullName.toList := by
    rw [fullName_of_split h]
    intro nul
    rw [split, if_pos (.inr (.inl nul))] at h
    cases h
  have within {before part after : String} (hp : '\x00' ∉ (framed before part after).toList) :
      '\x00' ∉ part.toList := by
    rw [framed] at hp
    split at hp
    · next none => simp [none]
    · simp at hp
      exact hp.2.1
  simp only [fullName, String.toList_append, List.mem_append, not_or] at clean
  obtain ⟨⟨⟨module, parent⟩, base⟩, extension⟩ := clean
  intro part hpart
  rw [zero_mem_utf8]
  simp only [List.mem_cons, List.not_mem_nil, or_false] at hpart
  rcases hpart with rfl | rfl | rfl | rfl
  · exact within module
  · exact within parent
  · exact base
  · exact within extension

theorem Interner.ofSize_of_add {pool : Interner} {s : String} {e : Error} (clean : 0 ∉ utf8 s)
    (h : pool.add s = .error e) : e.OfSize := by
  rw [add, succeeded_eq_error] at h
  rcases pool.intern_cases s with ⟨_, -, call⟩ | ⟨-, -, -, call⟩ | ⟨-, -, -, call⟩ | ⟨-, nul, -⟩
  · rw [call] at h
    cases h
  · rw [call] at h
    cases h
  · rw [call] at h
    cases h
    trivial
  · exact absurd nul clean

namespace Draft

theorem ofSize_of_record {pool : Interner} {offset : Nat} {resource : Resource} {e : Error}
    (storable : ∃ parts, NameParts.split resource.1 = .ok parts)
    (h : record pool offset resource = .error e) : e.OfSize := by
  obtain ⟨parts, named⟩ := storable
  have clean := NameParts.no_nul_of_split named
  rw [record] at h
  simp only [named, ok_bind, bind_eq_error] at h
  simp only [List.forall_mem_cons] at clean
  obtain ⟨module, parent, base, extension, -⟩ := clean
  rcases h with h | ⟨_, -, h | ⟨_, -, h | ⟨_, -, h | ⟨_, -, h⟩⟩⟩⟩
  · exact Interner.ofSize_of_add module h
  · exact Interner.ofSize_of_add parent h
  · exact Interner.ofSize_of_add base h
  · exact Interner.ofSize_of_add extension h
  · cases h

theorem ofSize_of_records {resources : List Resource} {pool : Interner} {start offset : Nat} {e : Error}
    (storable : ∀ r ∈ resources, ∃ parts, NameParts.split r.1 = .ok parts)
    (h : records pool start offset resources = .error e) : e.OfSize := by
  induction resources generalizing pool start offset with
  | nil => cases h
  | cons resource rest ih =>
    rw [records, bind_eq_error] at h
    rcases h with first | ⟨⟨r, pool'⟩, -, h⟩
    · exact ofSize_of_record (storable _ (.head _)) first
    · dsimp only at h
      split at h
      · cases h
        trivial
      · rcases bind_eq_error.1 h with h | ⟨_, -, h⟩
        · exact ih (fun r hr => storable r (.tail _ hr)) h
        · cases h

/-- A draft that cannot be laid out has too much of something, or names that no seed spreads. -/
theorem ofSize_of_layout {d : Draft} {e : Error} (h : d.layout = .error e) : e.OfSize := by
  have storable : ∀ r ∈ d.resources, ∃ parts, NameParts.split r.1 = .ok parts := by
    intro r hr
    refine d.storable r.1 ?_
    rw [Std.TreeMap.mem_iff_isSome_getElem?, Std.TreeMap.mem_toList_iff_getElem?_eq_some.1 hr]
    rfl
  rw [layout] at h
  rcases bind_eq_error.1 h with h | ⟨size, -, h⟩
  · exact Options.ofSize_of_bucketCount h
  rcases bind_eq_error.1 h with h | ⟨a, -, h⟩
  · exact Assignment.ofSize_of_build h
  rcases bind_eq_error.1 h with h | ⟨⟨rs, pool⟩, -, h⟩
  · exact ofSize_of_records storable h
  dsimp only at h
  split at h
  · cases h
    trivial
  split at h
  · cases h
    trivial
  · cases h

end Draft

/-! ### Reports -/

namespace Command.Failure

variable {f g : Failure} {c d : Char} {s : String} {k : Nat}

end Command.Failure

end ResourceArchive
