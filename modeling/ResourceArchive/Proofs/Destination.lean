import ResourceArchive.Proofs.Options

/-! Destinations of limited room. A destination takes the front of what is written to it, as much as it has
    room for, whatever pieces it comes in. All that may fail of a draft fails before its first piece. -/

namespace ResourceArchive.Draft

namespace Sink

theorem held_cons (room : Nat) (piece : Content) (pieces : List Content) :
    (Sink.mk room (piece :: pieces)).held.toBytes
      = (Sink.mk room pieces).held.toBytes ++ piece.toBytes := by
  simp only [held, List.reverse_cons, Content.toBytes_join, List.flatMap_append, List.flatMap_singleton]

/-- One piece is taken in full if there is room for it, and else as much of it as there is room for. -/
theorem write_cases (s : Sink) (piece : Content) :
    (piece.length ≤ s.room ∧ s.write piece = (.ok (), ⟨s.room - piece.length, piece :: s.pieces⟩))
    ∨ (s.room < piece.length
        ∧ s.write piece = (.error .destinationFull, ⟨0, piece.slice 0 s.room :: s.pieces⟩)) := by
  unfold write
  rcases Nat.lt_or_ge s.room piece.length with full | room
  · exact .inr ⟨full, if_neg (Nat.not_le.2 full)⟩
  · exact .inl ⟨room, if_pos room⟩

/-- Of all pieces a destination takes the front, and they are written if that is all of them. -/
theorem writeAll_eq (s : Sink) (pieces : List Content) :
    (s.writeAll pieces).1
        = (if (pieces.flatMap Content.toBytes).length ≤ s.room then .ok () else .error .destinationFull)
    ∧ (s.writeAll pieces).2.held.toBytes
        = s.held.toBytes ++ (pieces.flatMap Content.toBytes).take s.room := by
  induction pieces generalizing s with
  | nil => exact ⟨(if_pos (Nat.zero_le _)).symm, by simp [writeAll]⟩
  | cons piece rest ih =>
    have length := piece.toBytes_length
    rw [writeAll, List.flatMap_cons, List.length_append, length]
    rcases s.write_cases piece with ⟨room, written⟩ | ⟨full, written⟩
    · obtain ⟨outcome, held⟩ := ih ⟨s.room - piece.length, piece :: s.pieces⟩
      have whole : piece.toBytes.take s.room = piece.toBytes :=
        List.take_of_length_le (length.trans_le room)
      rw [written]
      refine ⟨outcome.trans ?_, held.trans ?_⟩
      · simp only [Nat.le_sub_iff_add_le' room]
      · rw [held_cons, List.take_append, whole, length, List.append_assoc]
        rfl
    · have part : (piece.toBytes ++ rest.flatMap Content.toBytes).take s.room = piece.toBytes.take s.room :=
        List.take_append_of_le_length (length.symm ▸ Nat.le_of_lt full)
      rw [written]
      refine ⟨(if_neg (by omega)).symm, ?_⟩
      rw [held_cons, Content.toBytes_slice, List.drop_zero, part]
      rfl

end Sink

variable {d : Draft} {l : Layout} {size : Nat} {rs : List Record}

theorem totalSize_eq (contents : List Content) :
    Layout.totalSize contents = (contents.flatMap Content.toBytes).length := by
  have counted (n : Nat) : contents.foldl (fun n c => n + c.length) n
      = n + (contents.flatMap Content.toBytes).length := by
    induction contents generalizing n with
    | nil => rfl
    | cons c rest ih =>
      rw [List.foldl_cons, ih, List.flatMap_cons, List.length_append, c.toBytes_length, Nat.add_assoc]
  rw [Layout.totalSize, counted, Nat.zero_add]

/-- The size that is reported is that of the container. -/
theorem Laid.size_eq (laid : d.Laid l size rs) (o : ByteOrder) :
    l.size = (l.toContent o).toBytes.length := by
  obtain ⟨a, packed⟩ := laid.packed o
  have contents := congrArg List.length packed.contents
  have indexed := packed.opened.indexed
  rw [List.length_drop, ← totalSize_eq] at contents
  have header : a.indexSize = l.header.indexSize :=
    congrArg Header.indexSize (laid.header_eq_of_packed packed)
  rw [Layout.size, Layout.contentSize, ← header, ← contents]
  omega

/-- A layout is written as far as there is room. -/
theorem writeTo_of_layout (layout : d.layout = .ok l) (s : Sink) :
    (d.writeTo s).1 = (if (l.toContent d.options.order).toBytes.length ≤ s.room
        then .ok (l.toContent d.options.order).toBytes.length else .error (.io .destinationFull))
    ∧ (d.writeTo s).2.held.toBytes
        = s.held.toBytes ++ (l.toContent d.options.order).toBytes.take s.room := by
  obtain ⟨size, rs, laid⟩ := laid_of_layout layout
  have reported := laid.size_eq d.options.order
  obtain ⟨outcome, held⟩ := s.writeAll_eq (l.pieces d.options.order)
  rw [← Content.toBytes_join, ← Layout.toContent] at outcome held
  simp only [writeTo, layout]
  rcases written : s.writeAll (l.pieces d.options.order) with ⟨e | _, after⟩
  · rw [written] at outcome held
    split at outcome
    · cases outcome
    · next full =>
      cases outcome
      exact ⟨(if_neg full).symm, held⟩
  · rw [written] at outcome held
    split at outcome
    · next room =>
      refine ⟨?_, held⟩
      rw [if_pos room, reported]
    · cases outcome

/-- A draft that cannot be built leaves its destination empty. Any other is written up to where there is no
    more room, and in full exactly if there is room for it; where its pieces begin and end has no say in
    that. Writing takes the draft as it is, so it is built to the same bytes before and after. -/
theorem writeTo_limited (d : Draft) (room : Nat) :
    (∀ e, d.toBytes = .error e →
      (d.writeTo { room := room }).1 = .error e ∧ (d.writeTo { room := room }).2.held.toBytes = [])
    ∧ ∀ data, d.toBytes = .ok data →
      (d.writeTo { room := room }).1
          = (if data.length ≤ room then .ok data.length else .error (.io .destinationFull))
      ∧ (d.writeTo { room := room }).2.held.toBytes = data.take (min room data.length)
      ∧ ∀ pieces : List Content, pieces.flatMap Content.toBytes = data →
          (Sink.writeAll { room := room } pieces).1
              = (if data.length ≤ room then .ok () else .error .destinationFull)
          ∧ (Sink.writeAll { room := room } pieces).2.held.toBytes = data.take (min room data.length) := by
  constructor
  · intro e refused
    rw [writeTo, toBytes_eq_error.1 refused]
    exact ⟨rfl, rfl⟩
  · intro data built
    obtain ⟨l, layout, rfl⟩ := toBytes_eq_ok.1 built
    obtain ⟨outcome, held⟩ := writeTo_of_layout layout { room := room }
    refine ⟨outcome, ?_, ?_⟩
    · rw [held, List.take_eq_take_min]
      rfl
    · intro pieces parts
      obtain ⟨outcome, held⟩ := Sink.writeAll_eq { room := room } pieces
      rw [parts] at outcome held
      rw [held, List.take_eq_take_min]
      exact ⟨outcome, rfl⟩

/-- The container of `fourCalls` in a destination that has no room for its last byte, and a draft that
    would need infinitely many buckets. -/
theorem writeTo_limited_fourCalls : ∃ data, (addAll {} fourCalls).toBytes = .ok data
    ∧ ((addAll {} fourCalls).writeTo { room := data.length - 1 }).1 = .error (.io .destinationFull)
    ∧ ((addAll {} fourCalls).writeTo { room := data.length - 1 }).2.held.toBytes
        = data.take (data.length - 1)
    ∧ ((addAll {} fourCalls).writeTo { room := data.length }).1 = .ok data.length
    ∧ ((addAll { options := { density := .infinity } } fourCalls).writeTo { room := 7 }).1
        = .error (.tooLarge .buckets)
    ∧ ((addAll { options := { density := .infinity } } fourCalls).writeTo { room := 7 }).2.held.toBytes
        = [] := by
  have some : (addAll {} fourCalls).toBytes.toOption.any (0 < ·.length) := by
    decide +kernel
  have refused : (addAll { options := { density := .infinity } } fourCalls).toBytes
      = .error (.tooLarge .buckets) := by
    decide +kernel
  rcases built : (addAll {} fourCalls).toBytes with e | data
  · rw [built] at some
    cases some
  · rw [built] at some
    have some : 0 < data.length := of_decide_eq_true some
    obtain ⟨outcome, held, -⟩ := (writeTo_limited (addAll {} fourCalls) (data.length - 1)).2 data built
    obtain ⟨whole, -⟩ := (writeTo_limited (addAll {} fourCalls) data.length).2 data built
    rw [if_neg (by omega)] at outcome
    rw [Nat.min_eq_left (Nat.sub_le ..)] at held
    rw [if_pos (Nat.le_refl _)] at whole
    exact ⟨data, rfl, outcome, held, whole, (writeTo_limited _ 7).1 _ refused⟩

end ResourceArchive.Draft
