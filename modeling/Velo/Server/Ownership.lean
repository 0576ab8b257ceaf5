import Velo.Book.Invariant
import Velo.Server.Session

/-! The owner map and the book, between any two messages. -/
namespace Velo
open Machine

/-- In every reachable state the owner map has an entry for each resting order and for no other,
and it is the descriptor of the connection whose `NewOrder` put that order to rest. -/
theorem owner_map_tracks_resting (es : List Event) {log : List Dispatch} {s : Session}
    (h : run Session.step .start es = some (log, s)) :
    (∀ id, id ∈ s.server.orderOwnerFd ↔ s.server.book.Rests id) ∧
      s.server.orderOwnerFd.keys.card = s.server.book.resting.length ∧
      ∀ id fd, s.server.orderOwnerFd.lookup id = some fd →
        ∃ k, s.owner id = some k ∧ s.descriptors[k]? = some fd := by
  have hs := Session.Sound.start.run h
  obtain ⟨L, hL⟩ := hs.book
  refine ⟨hs.owned, ?_, hs.owner⟩
  have hkeys : s.server.orderOwnerFd.keys = s.server.book.orderIndex.keys := by
    ext id
    rw [Finmap.mem_keys, hs.owned, hL.rests_iff, OrderBook.contains, decide_eq_true_eq,
      Finmap.mem_keys]
  rw [hkeys]
  exact hL.consistent.index_card

theorem owner_map_tracks_resting_after_partial_fill :
    let s := (((Session.start.connect 5).dispatch 5 0 (.newOrder ⟨1, 1, 0, 100, 10⟩)).connect
      6).dispatch 6 1 (.newOrder ⟨2, 0, 0, 100, 4⟩)
    1 ∈ s.server.orderOwnerFd ↔ s.server.book.Rests 1 :=
  (owner_map_tracks_resting [.connect 5, .message 5 (.newOrder ⟨1, 1, 0, 100, 10⟩), .connect 6,
    .message 6 (.newOrder ⟨2, 0, 0, 100, 4⟩)] rfl).1 1

end Velo
