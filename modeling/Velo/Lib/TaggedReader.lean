import Velo.Lib.Framing

/-! A stream of messages, each a tag and a payload whose size the tag fixes, and a reader that asks
for the rest of a tag or payload until it has it, and gets as much at a time as there happens to
be. -/
namespace Velo

/-- How large the payload of a tag is and what it means. -/
structure Tagged (β ε : Type*) where
  payloadSize : β → Option ℕ
  decode : β → List β → Option ε

namespace Tagged

variable {β ε ι : Type*} (T : Tagged β ε)

def next : List β → Next β ε
  | [] => .more
  | tag :: l =>
    match T.payloadSize tag with
    | none => .reject
    | some n =>
      if l.length < n then .more
      else
        match T.decode tag (l.take n) with
        | none => .reject
        | some e => .item e (l.drop n)

variable {T} {tag : β} {l m : List β} {n : ℕ} {e : ε}

theorem next_of_unknown (h : T.payloadSize tag = none) : T.next (tag :: l) = .reject := by
  simp only [next, h]

theorem next_of_short (h : T.payloadSize tag = some n) (hl : l.length < n) :
    T.next (tag :: l) = .more := by
  simp only [next, h, if_pos hl]

theorem next_of_decode (h : T.payloadSize tag = some l.length) (hl : T.decode tag l = some e)
    (m : List β) : T.next (tag :: (l ++ m)) = .item e m := by
  have hlong : ¬ (l ++ m).length < l.length := by simp
  simp only [next, h, if_neg hlong, List.take_left, List.drop_left, hl]

theorem next_of_meaningless (h : T.payloadSize tag = some l.length) (hl : T.decode tag l = none)
    (m : List β) : T.next (tag :: (l ++ m)) = .reject := by
  have hlong : ¬ (l ++ m).length < l.length := by simp
  simp only [next, h, if_neg hlong, List.take_left, hl]

theorem next_cases (T : Tagged β ε) (l : List β) :
    T.next l = .more ∨ (∃ tag m, l = tag :: m ∧ T.payloadSize tag = none) ∨
      ∃ tag payload m, l = tag :: (payload ++ m) ∧ T.payloadSize tag = some payload.length := by
  cases l with
  | nil => exact Or.inl rfl
  | cons tag l =>
    cases hsize : T.payloadSize tag with
    | none => exact Or.inr (Or.inl ⟨tag, l, rfl, hsize⟩)
    | some n =>
      by_cases hl : l.length < n
      · exact Or.inl (next_of_short hsize hl)
      · refine Or.inr (Or.inr ⟨tag, l.take n, l.drop n, by rw [List.take_append_drop], ?_⟩)
        rw [hsize, List.length_take, Nat.min_eq_left (Nat.le_of_not_lt hl)]

variable (T) in
def framing : Framing β ε where
  next := T.next
  next_nil := rfl
  item_append := by
    intro l e r m h
    rcases T.next_cases l with hmore | ⟨tag, l, rfl, hsize⟩ | ⟨tag, payload, l, rfl, hsize⟩
    · rw [hmore] at h
      cases h
    · rw [next_of_unknown hsize] at h
      cases h
    · rw [List.cons_append, List.append_assoc]
      cases hdecode : T.decode tag payload with
      | none =>
        rw [next_of_meaningless hsize hdecode] at h
        cases h
      | some e' =>
        rw [next_of_decode hsize hdecode] at h ⊢
        cases h
        rfl
  reject_append := by
    intro l m h
    rcases T.next_cases l with hmore | ⟨tag, l, rfl, hsize⟩ | ⟨tag, payload, l, rfl, hsize⟩
    · rw [hmore] at h
      cases h
    · rw [List.cons_append, next_of_unknown hsize]
    · rw [List.cons_append, List.append_assoc]
      cases hdecode : T.decode tag payload with
      | none => exact next_of_meaningless hsize hdecode (l ++ m)
      | some e' =>
        rw [next_of_decode hsize hdecode] at h
        cases h
  item_shorter := by
    intro l e r h
    rcases T.next_cases l with hmore | ⟨tag, l, rfl, hsize⟩ | ⟨tag, payload, l, rfl, hsize⟩
    · rw [hmore] at h
      cases h
    · rw [next_of_unknown hsize] at h
      cases h
    · cases hdecode : T.decode tag payload with
      | none =>
        rw [next_of_meaningless hsize hdecode] at h
        cases h
      | some e' =>
        rw [next_of_decode hsize hdecode] at h
        cases h
        simp only [List.length_cons, List.length_append]
        omega

/-- What a stream of whole messages is read as. -/
theorem parse_messages (tag : ι → β) (payload : ι → List β) (event : ι → ε) {as : List ι}
    (hsize : ∀ a ∈ as, T.payloadSize (tag a) = some (payload a).length)
    (hdecode : ∀ a ∈ as, T.decode (tag a) (payload a) = some (event a)) (l : List β) :
    (T.framing.parse (as.flatMap (fun a => tag a :: payload a) ++ l)).1 =
      as.map event ++ (T.framing.parse l).1 := by
  induction as with
  | nil => rfl
  | cons a as ih =>
    have hnext : T.framing.next (tag a :: (payload a ++ _)) = _ :=
      next_of_decode (hsize a List.mem_cons_self) (hdecode a List.mem_cons_self)
        (as.flatMap (fun a => tag a :: payload a) ++ l)
    rw [List.flatMap_cons, List.append_assoc, List.cons_append, T.framing.parse_item hnext,
      ih (fun a' ha' => hsize a' (List.mem_cons_of_mem a ha'))
        fun a' ha' => hdecode a' (List.mem_cons_of_mem a ha')]
    rfl

end Tagged

/-- A reader waits for a tag, has some of a payload but not all, or reads no more. -/
inductive TaggedReader {β ε : Type*} (T : Tagged β ε)
  | atTag
  | inPayload (tag : β) (size : ℕ) (buf : List β) (hsize : T.payloadSize tag = some size)
    (hbuf : buf.length < size)
  | stopped

namespace TaggedReader

variable {β ε : Type*} {T : Tagged β ε} {r : TaggedReader T} {bytes rest : List β}

/-- What has been received of a message that is not complete. -/
def pending : TaggedReader T → Option (List β)
  | .atTag => some []
  | .inPayload tag _ buf _ _ => some (tag :: buf)
  | .stopped => none

/-- How much is asked for. -/
def missing : TaggedReader T → ℕ
  | .atTag => 1
  | .inPayload _ size buf _ _ => size - buf.length
  | .stopped => 0

def complete (T : Tagged β ε) (tag : β) (payload : List β) : Option ε × TaggedReader T :=
  match T.decode tag payload with
  | none => (none, .stopped)
  | some e => (some e, .atTag)

/-- Bytes are received, no more than were asked for; with the last of a message comes what it
means. -/
def receive : TaggedReader T → List β → Option ε × TaggedReader T
  | .atTag, [] => (none, .atTag)
  | .atTag, tag :: _ =>
    match h : T.payloadSize tag with
    | none => (none, .stopped)
    | some 0 => complete T tag []
    | some (n + 1) => (none, .inPayload tag (n + 1) [] h (Nat.succ_pos n))
  | .inPayload tag size buf hsize _, bytes =>
    if h : (buf ++ bytes).length < size then (none, .inPayload tag size (buf ++ bytes) hsize h)
    else complete T tag (buf ++ bytes)
  | .stopped, _ => (none, .stopped)

/-- What the reader makes of the rest of a stream. -/
def ahead (r : TaggedReader T) (rest : List β) : List ε :=
  (r.pending.map fun l => (T.framing.parse (l ++ rest)).1).getD []

theorem ahead_nil (r : TaggedReader T) : r.ahead [] = [] := by
  cases r with
  | atTag =>
    have hnext : T.framing.next [] = .more := rfl
    simp only [ahead, pending, Option.map_some, Option.getD_some, List.append_nil]
    rw [T.framing.parse_more hnext]
  | inPayload tag size buf hsize hbuf =>
    have hnext : T.framing.next (tag :: buf) = .more := Tagged.next_of_short hsize hbuf
    simp only [ahead, pending, Option.map_some, Option.getD_some, List.append_nil]
    rw [T.framing.parse_more hnext]
  | stopped => rfl

theorem complete_ahead {tag : β} {payload : List β}
    (h : T.payloadSize tag = some payload.length) (rest : List β) :
    (T.framing.parse (tag :: (payload ++ rest))).1 =
      (complete T tag payload).1.toList ++ (complete T tag payload).2.ahead rest := by
  cases hdecode : T.decode tag payload with
  | none =>
    have hnext : T.framing.next (tag :: (payload ++ rest)) = _ :=
      Tagged.next_of_meaningless h hdecode rest
    simp only [complete, hdecode, ahead, pending]
    rw [T.framing.parse_reject hnext]
    rfl
  | some e =>
    have hnext : T.framing.next (tag :: (payload ++ rest)) = _ :=
      Tagged.next_of_decode h hdecode rest
    simp only [complete, hdecode, ahead, pending]
    rw [T.framing.parse_item hnext]
    rfl

/-- However much is received at a time, the messages are those of the stream. -/
theorem receive_ahead (hne : bytes ≠ []) (hle : bytes.length ≤ r.missing) (rest : List β) :
    r.ahead (bytes ++ rest) = (r.receive bytes).1.toList ++ (r.receive bytes).2.ahead rest := by
  cases r with
  | atTag =>
    obtain ⟨tag, rfl⟩ : ∃ tag, bytes = [tag] := by
      refine List.length_eq_one_iff.mp ?_
      have hpos := List.length_pos_iff.mpr hne
      simp only [missing] at hle
      omega
    simp only [receive]
    split
    · rename_i hunknown
      have hnext : T.framing.next (tag :: rest) = .reject := Tagged.next_of_unknown hunknown
      simp only [ahead, pending, Option.map_some, Option.getD_some, List.nil_append,
        List.singleton_append]
      rw [T.framing.parse_reject hnext]
      rfl
    · rename_i hzero
      have hempty : T.payloadSize tag = some ([] : List β).length := hzero
      exact complete_ahead hempty rest
    · rfl
  | inPayload tag size buf hsize hbuf =>
    simp only [missing] at hle
    by_cases hshort : (buf ++ bytes).length < size
    · simp only [receive, dif_pos hshort, ahead, pending, Option.map_some, Option.getD_some,
        Option.toList_none, List.nil_append, List.cons_append, List.append_assoc]
    · have hlen : size = (buf ++ bytes).length := by
        rw [List.length_append] at hshort ⊢
        omega
      rw [hlen] at hsize
      have hall := complete_ahead hsize rest
      simp only [receive, dif_neg hshort, ahead, pending, Option.map_some, Option.getD_some,
        List.cons_append, ← List.append_assoc]
      exact hall
  | stopped => exact absurd (List.length_eq_zero_iff.mp (Nat.le_zero.mp hle)) hne

theorem receive_take {n : ℕ} {socket : List β} (hpos : 1 ≤ n) (hn : n ≤ r.missing)
    (hsocket : n ≤ socket.length) (later : List β) :
    r.ahead (socket ++ later) = (r.receive (socket.take n)).1.toList ++
      (r.receive (socket.take n)).2.ahead (socket.drop n ++ later) := by
  have hlen : (socket.take n).length = n := by rw [List.length_take, Nat.min_eq_left hsocket]
  have hne : socket.take n ≠ [] := List.ne_nil_of_length_pos (by omega)
  rw [← receive_ahead hne (by omega), ← List.append_assoc, List.take_append_drop]

/-- Nothing is taken for a message that is not one. -/
theorem receive_complete (hle : bytes.length ≤ r.missing) {e : ε}
    (h : (r.receive bytes).1 = some e) :
    ∃ tag payload, T.payloadSize tag = some payload.length ∧ T.decode tag payload = some e := by
  have hcomplete {tag : β} {payload : List β} (h : (complete T tag payload).1 = some e) :
      T.decode tag payload = some e := by
    cases hdecode : T.decode tag payload with
    | none =>
      rw [complete, hdecode] at h
      cases h
    | some e' =>
      rw [complete, hdecode] at h
      exact h
  cases r with
  | atTag =>
    cases bytes with
    | nil => cases h
    | cons tag bytes =>
      simp only [receive] at h
      split at h
      · cases h
      · rename_i hzero
        exact ⟨tag, [], hzero, hcomplete h⟩
      · cases h
  | inPayload tag size buf hsize hbuf =>
    simp only [missing] at hle
    simp only [receive] at h
    split at h
    · cases h
    · rename_i hlong
      refine ⟨tag, buf ++ bytes, ?_, hcomplete h⟩
      have hlen : size = (buf ++ bytes).length := by
        rw [List.length_append] at hlong ⊢
        omega
      rw [hsize, hlen]
  | stopped => cases h

end TaggedReader
end Velo
