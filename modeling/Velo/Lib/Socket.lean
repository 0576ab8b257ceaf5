import Mathlib.Data.Nat.Notation
import Mathlib.Data.List.Basic

/-! A stream socket as the chunks that arrive on it, and a reader of messages that are a tag and a
payload whose size the tag fixes. -/
namespace Velo.Socket

variable {β ε ι : Type*} {s t : List (List β)} {n fuel : ℕ}

/-- Reads until `n` items are there, of each chunk as many as are still missing. An empty chunk is
the end of the stream. -/
def recvExact : ℕ → List (List β) → Option (List β × List (List β))
  | 0, s => some ([], s)
  | _ + 1, [] => none
  | _ + 1, [] :: _ => none
  | n + 1, (b :: c) :: s =>
    if c.length ≤ n then (recvExact (n - c.length) s).map fun r => (b :: c ++ r.1, r.2)
    else some ((b :: c).take (n + 1), c.drop n :: s)

/-- Only the bytes matter, not where they are cut. -/
theorem recvExact_eq (hs : ∀ c ∈ s, c ≠ []) (hn : n ≤ s.flatten.length) :
    ∃ t, recvExact n s = some (s.flatten.take n, t) ∧ t.flatten = s.flatten.drop n ∧
      ∀ c ∈ t, c ≠ [] := by
  induction s generalizing n with
  | nil =>
    have hzero : n = 0 := by simpa using hn
    subst hzero
    exact ⟨[], rfl, rfl, hs⟩
  | cons c s ih =>
    cases n with
    | zero => exact ⟨c :: s, by simp [recvExact], rfl, hs⟩
    | succ n =>
      cases c with
      | nil => exact absurd rfl (hs [] List.mem_cons_self)
      | cons b c =>
        rw [List.flatten_cons] at hn ⊢
        by_cases hc : c.length ≤ n
        · have hrest : n - c.length ≤ s.flatten.length := by
            simp only [List.length_append, List.length_cons] at hn
            omega
          obtain ⟨t, ht, hflat, hne⟩ := ih (fun c' hc' => hs c' (List.mem_cons_of_mem _ hc')) hrest
          have hsub : n + 1 - (b :: c).length = n - c.length := by
            rw [List.length_cons]
            omega
          have hle : (b :: c).length ≤ n + 1 := Nat.succ_le_succ hc
          refine ⟨t, ?_, ?_, hne⟩
          · rw [recvExact, if_pos hc, ht, List.take_append, List.take_of_length_le hle, hsub]
            rfl
          · rw [hflat, List.drop_append, List.drop_eq_nil_of_le hle, hsub, List.nil_append]
        · have hlt : n < c.length := Nat.lt_of_not_le hc
          have hle : n + 1 ≤ (b :: c).length := Nat.succ_le_succ (Nat.le_of_lt hlt)
          refine ⟨c.drop n :: s, ?_, ?_, ?_⟩
          · rw [recvExact, if_neg hc, List.take_append_of_le_length hle]
          · rw [List.drop_append_of_le_length hle]
            rfl
          · intro c' hc'
            rcases List.mem_cons.mp hc' with rfl | hc'
            · exact List.ne_nil_of_length_pos (by rw [List.length_drop]; omega)
            · exact hs c' (List.mem_cons_of_mem _ hc')

/-- Reads messages until the stream ends, a tag has no payload size or a payload has no meaning. -/
def readTagged (payloadSize : β → Option ℕ) (decode : β → List β → Option ε) :
    ℕ → List (List β) → List ε
  | 0, _ => []
  | fuel + 1, s =>
    match recvExact 1 s with
    | some ([tag], s) =>
      match payloadSize tag with
      | none => []
      | some n =>
        match recvExact n s with
        | none => []
        | some (payload, s) =>
          match decode tag payload with
          | none => []
          | some e => e :: readTagged payloadSize decode fuel s
    | _ => []

/-- A stream of well-formed messages is read as these, wherever it is cut. -/
theorem readTagged_eq {payloadSize : β → Option ℕ} {decode : β → List β → Option ε}
    (tag : ι → β) (payload : ι → List β) (event : ι → ε) {as : List ι}
    (hsize : ∀ a ∈ as, payloadSize (tag a) = some (payload a).length)
    (hdecode : ∀ a ∈ as, decode (tag a) (payload a) = some (event a))
    (hs : ∀ c ∈ s, c ≠ [])
    (hflat : s.flatten = (as.map fun a => tag a :: payload a).flatten)
    (hfuel : as.length < fuel) : readTagged payloadSize decode fuel s = as.map event := by
  induction as generalizing s fuel with
  | nil =>
    cases fuel with
    | zero => rfl
    | succ fuel =>
      cases s with
      | nil => rfl
      | cons c s =>
        have hc := hs c List.mem_cons_self
        simp only [List.flatten_cons, List.map_nil, List.flatten_nil,
          List.append_eq_nil_iff] at hflat
        exact absurd hflat.1 hc
  | cons a as ih =>
    cases fuel with
    | zero => exact absurd hfuel (Nat.not_lt_zero _)
    | succ fuel =>
      rw [List.map_cons, List.flatten_cons] at hflat
      obtain ⟨t, ht, htflat, hne⟩ := recvExact_eq (n := 1) hs (by simp [hflat])
      rw [hflat] at ht htflat
      obtain ⟨u, hu, huflat, hne'⟩ := recvExact_eq (n := (payload a).length) hne (by simp [htflat])
      rw [htflat] at hu huflat
      have htake : ((payload a) ++ (as.map fun a => tag a :: payload a).flatten).take
          (payload a).length = payload a := List.take_left
      have hdrop : ((payload a) ++ (as.map fun a => tag a :: payload a).flatten).drop
          (payload a).length = (as.map fun a => tag a :: payload a).flatten := List.drop_left
      simp only [List.cons_append, List.take_succ_cons, List.take_zero, List.drop_succ_cons,
        List.drop_zero] at ht hu huflat
      rw [htake] at hu
      rw [hdrop] at huflat
      have hrest := ih (fun a' ha' => hsize a' (List.mem_cons_of_mem _ ha'))
        (fun a' ha' => hdecode a' (List.mem_cons_of_mem _ ha')) hne' huflat
        (Nat.lt_of_succ_lt_succ hfuel)
      simp only [readTagged, ht, hsize a List.mem_cons_self, hu, hdecode a List.mem_cons_self,
        hrest, List.map_cons]

theorem length_le_flatten (tag : ι → β) (payload : ι → List β) (as : List ι) :
    as.length ≤ (as.map fun a => tag a :: payload a).flatten.length := by
  induction as with
  | nil => exact Nat.le_refl _
  | cons a as ih =>
    rw [List.map_cons, List.flatten_cons, List.length_append, List.length_cons, List.length_cons]
    omega

theorem readTagged_all {payloadSize : β → Option ℕ} {decode : β → List β → Option ε}
    (tag : ι → β) (payload : ι → List β) (event : ι → ε) {as : List ι}
    (hsize : ∀ a ∈ as, payloadSize (tag a) = some (payload a).length)
    (hdecode : ∀ a ∈ as, decode (tag a) (payload a) = some (event a))
    (hs : ∀ c ∈ s, c ≠ []) (hflat : s.flatten = (as.map fun a => tag a :: payload a).flatten) :
    readTagged payloadSize decode (s.flatten.length + 1) s = as.map event := by
  refine readTagged_eq tag payload event hsize hdecode hs hflat ?_
  rw [hflat]
  exact Nat.lt_succ_of_le (length_le_flatten tag payload as)

end Velo.Socket
