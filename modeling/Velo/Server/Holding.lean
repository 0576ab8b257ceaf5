import Velo.Book.Remainder
import Velo.Server.FanOut

/-! What a connection has resting, before and after a message of any connection. -/
namespace Velo
namespace Session

variable {s : Session} {fd fd' : Fd} {k k' : ConnId} {msg : ClientMsg} {id : UInt64}

/-- The order rests, and the connection put it there. -/
def Holds (s : Session) (k : ConnId) (id : UInt64) : Prop :=
  s.server.book.Rests id ∧ s.owner id = some k

instance (s : Session) (k : ConnId) (id : UInt64) : Decidable (s.Holds k id) :=
  inferInstanceAs (Decidable (_ ∧ _))

theorem step_message (hk : s.holder fd = some k) (msg : ClientMsg) : s.step (.message fd msg) =
    some ([⟨k, msg, s.deliver (s.server.dispatch fd msg).1⟩], s.dispatch fd k msg) := by
  simp only [step, hk]

theorem Sound.dispatch (h : s.Sound) (hk : s.holder fd = some k) (msg : ClientMsg) :
    (s.dispatch fd k msg).Sound :=
  h.step (step_message hk msg)

theorem Sound.book_dispatch_newOrder (h : s.Sound) {m : ClientOrderMsg}
    (hid : ¬ s.server.book.Rests m.clientOrderId) :
    (s.dispatch fd k (.newOrder m)).server.book = (s.server.book.submit m.toOrder).2 := by
  obtain ⟨L, hL⟩ := h.book
  exact (dispatchNewOrder_accepted hL fd hid).2.1

/-- What rests afterwards rested before, or it is the message's own order. -/
theorem Sound.rests_dispatch (h : s.Sound)
    (hid : (s.dispatch fd k msg).server.book.Rests id) :
    (s.server.book.Rests id ∧ (s.dispatch fd k msg).owner id = s.owner id ∧
        msg ≠ .cancel ⟨id⟩) ∨
      (¬ s.server.book.Rests id ∧ (s.dispatch fd k msg).owner id = some k ∧
        ∃ m, msg = .newOrder m ∧ m.clientOrderId = id ∧ m.toOrder.type = .limit) := by
  obtain ⟨L, hL⟩ := h.book
  cases msg with
  | newOrder m =>
    by_cases hm : s.server.book.Rests m.clientOrderId
    · rw [h.dispatch_rejected fd k hm] at hid ⊢
      exact Or.inl ⟨hid, rfl, by simp⟩
    · rw [h.book_dispatch_newOrder hm] at hid
      rw [h.owner_dispatch fd k hm]
      by_cases he : id = m.clientOrderId
      · subst he
        have hlimit := ((hL.rests_submitted_iff hm).mp hid).1
        exact Or.inr ⟨hm, if_pos ⟨rfl, hid⟩, m, rfl, rfl, hlimit⟩
      · exact Or.inl ⟨hL.rests_of_submit hm he hid, if_neg fun hself => he hself.1, by simp⟩
  | cancel m =>
    obtain ⟨hrest, hne⟩ := ((hL.cancel_rests m.clientOrderId).2 id).mp hid
    refine Or.inl ⟨hrest, rfl, ?_⟩
    intro he
    cases he
    exact hne rfl
  | subscribeFills => exact Or.inl ⟨hid, rfl, by simp⟩

/-- What leaves the book was cancelled, or it was filled, which its owner is told. -/
theorem Sound.gone_dispatch (h : s.Sound) (hk : s.holder fd = some k)
    (hk' : s.holder fd' = some k') (hid : s.Holds k' id)
    (hgone : ¬ (s.dispatch fd k msg).server.book.Rests id) :
    msg = .cancel ⟨id⟩ ∨ ∃ f : FillWireMsg, f.restingOrderId = id ∧
      .fill f ∈ received k' (s.deliver (s.server.dispatch fd msg).1) := by
  obtain ⟨L, hL⟩ := h.book
  cases msg with
  | newOrder m =>
    by_cases hm : s.server.book.Rests m.clientOrderId
    · rw [h.dispatch_rejected fd k hm] at hgone
      exact absurd hid.1 hgone
    · rw [h.book_dispatch_newOrder hm] at hgone
      obtain ⟨f, hf, rfl⟩ := List.mem_map.mp (hL.filled_of_submit hm hid.1 hgone)
      refine Or.inr ⟨f.toWire, rfl, ?_⟩
      obtain ⟨fd₀, hlookup⟩ := Option.isSome_iff_exists.mp
        (Finmap.lookup_isSome.mpr ((h.owned f.restingOrderId).mpr hid.1))
      obtain ⟨j, hj, hd⟩ := h.owner f.restingOrderId fd₀ hlookup
      rw [hid.2] at hj
      cases hj
      have hfd : fd₀ = fd' := by
        rw [h.descriptor fd' k' hk'] at hd
        exact (Option.some.inj hd).symm
      subst hfd
      have hcopy : .fill f.toWire ∈ received k' (s.deliver (s.server.fillSends fd f)) := by
        rw [h.received_fill hk', if_pos (Or.inr (Or.inl hlookup))]
        exact List.mem_singleton_self _
      simp only [OrderBookServer.dispatch]
      rw [(dispatchNewOrder_accepted hL fd hm).1, sendAck, deliver_cons hk, received_cons,
        received_deliver_flatMap]
      have hmem : .fill f.toWire ∈ (s.server.book.submit m.toOrder).1.flatMap fun f =>
          received k' (s.deliver (s.server.fillSends fd f)) := List.mem_flatMap.mpr ⟨f, hf, hcopy⟩
      split
      · exact List.mem_cons_of_mem _ hmem
      · exact hmem
  | cancel m =>
    have hcancel := ((hL.cancel_rests m.clientOrderId).2 id).not.mp hgone
    have he : id = m.clientOrderId := by
      by_contra hne
      exact hcancel ⟨hid.1, hne⟩
    subst he
    exact Or.inl rfl
  | subscribeFills => exact absurd hid.1 hgone

/-- What rests afterwards is on the terms it was on before, or on those of the message. -/
theorem Sound.terms_dispatch (h : s.Sound) {r : Order}
    (hr : r ∈ (s.dispatch fd k msg).server.book.resting) : ∃ a,
    (a ∈ s.server.book.resting ∨ ∃ m, msg = .newOrder m ∧
        ¬ s.server.book.Rests m.clientOrderId ∧ a = m.toOrder) ∧
      a.id = r.id ∧ a.side = r.side ∧ a.priceTicks = r.priceTicks := by
  obtain ⟨L, hL⟩ := h.book
  cases msg with
  | newOrder m =>
    by_cases hm : s.server.book.Rests m.clientOrderId
    · rw [h.dispatch_rejected fd k hm] at hr
      exact ⟨r, Or.inl hr, rfl, rfl, rfl⟩
    · rw [h.book_dispatch_newOrder hm] at hr
      obtain ⟨a, ha, hterms⟩ := hL.terms_of_submit hr
      refine ⟨a, ha.imp_right ?_, hterms⟩
      rintro ⟨hm, rfl⟩
      exact ⟨m, rfl, hm, rfl⟩
  | cancel m => exact ⟨r, Or.inl (hL.terms_of_cancel hr), rfl, rfl, rfl⟩
  | subscribeFills => exact ⟨r, Or.inl hr, rfl, rfl, rfl⟩

/-- What a connection has resting stays so on its terms unless it is cancelled, or its owner is
told of a fill. -/
theorem Sound.kept_dispatch (h : s.Sound) (hk : s.holder fd = some k)
    (hk' : s.holder fd' = some k') {o : Order} (ho : o ∈ s.server.book.resting)
    (hown : s.owner o.id = some k') (hne : msg ≠ .cancel ⟨o.id⟩) :
    (∃ r ∈ (s.dispatch fd k msg).server.book.resting,
        (s.dispatch fd k msg).owner r.id = some k' ∧ r.id = o.id ∧ r.side = o.side ∧
          r.priceTicks = o.priceTicks) ∨
      ∃ f : FillWireMsg, f.restingOrderId = o.id ∧
        .fill f ∈ received k' (s.deliver (s.server.dispatch fd msg).1) := by
  obtain ⟨L, hL⟩ := h.book
  have hrests : s.server.book.Rests o.id := List.mem_map_of_mem ho
  by_cases hid : (s.dispatch fd k msg).server.book.Rests o.id
  · obtain ⟨r, hr, hro⟩ := List.mem_map.mp hid
    rcases h.rests_dispatch hid with ⟨-, hkeep, -⟩ | ⟨hfresh, -⟩
    · obtain ⟨a, ha | ⟨m, rfl, hm, rfl⟩, haid, haside, haprice⟩ := h.terms_dispatch hr
      · have heq := hL.eq_of_id ha ho (haid.trans hro)
        subst heq
        exact Or.inl ⟨r, hr, by rw [hro, hkeep, hown], hro, haside.symm, haprice.symm⟩
      · have hself : m.clientOrderId = o.id := haid.trans hro
        exact absurd (hself ▸ hrests) hm
    · exact absurd hrests hfresh
  · exact Or.inr ((h.gone_dispatch hk hk' ⟨hrests, hown⟩ hid).resolve_left hne)

end Session
end Velo
