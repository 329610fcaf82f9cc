/-
  What a run records. The controller takes whatever a board holds, also what an earlier run left
  there, and it looks at its block counter only at the end of a pass. If no board holds or works on
  anything at the beginning, and none has a reply for the controller once the last expected one is
  in, then every record is the reply to a job of this run, no job has two records, and at the end
  there are as many as blocks, with their number behind them (`collect_exactly_once`).
-/
import DistHuffman.Main.System
import DistHuffman.Slave.Reply

namespace DistHuffman.Main

open DistHuffman.Lib
open DistHuffman.Slave (Buffer replyHeader)

/-- Every record is the reply to a job sent in this run, and no two are to the same job. -/
def OncePerJob (s : Sys) : Prop :=
  (∀ e ∈ s.recorded, ∃ id j, e.1 = some id ∧ s.sent[id]? = some j ∧ IsResult j.message e.2) ∧
    (s.recorded.map Prod.fst).Nodup

/-- What is known of a board: nothing happened to it yet, or it has one of the jobs sent, whose
    reply is not recorded. -/
def BoardOk (s : Sys) (b : Board) : Prop :=
  (b.origin = none ∧ ∃ out, b.reply = some out ∧ ¬ HasReply out) ∨
  ∃ id j, b.origin = some id ∧ s.sent[id]? = some j ∧ some id ∉ s.recorded.map Prod.fst ∧
    ∀ out, b.reply = some out → IsResult j.message out

/-- All along a run. -/
structure Collecting (n : Nat) (s : Sys) : Prop where
  block : s.ctl.block.toNat = s.recorded.length
  le : s.recorded.length ≤ s.ctl.blockCount.toNat
  expected : s.ctl.blockCount ≠ 0
  last : s.recorded.length = s.ctl.blockCount.toNat →
    s.ctl.writes.head? = some (s.ctl.output.end_, [s.ctl.blockCount])
  boards : ∀ i < n, BoardOk s (s.boards i)
  distinct : ∀ i < n, ∀ j < n, ∀ id, (s.boards i).origin = some id →
    (s.boards j).origin = some id → i = j
  once : OncePerJob s

/-- Jobs sent later, and records for other boards, do not concern a board. -/
theorem BoardOk.mono {s t : Sys} {b : Board} (h : BoardOk s b)
    (hsent : ∀ (id : Nat) (j : Job), s.sent[id]? = some j → t.sent[id]? = some j)
    (hrec : ∀ id, b.origin = some id → some id ∈ t.recorded.map Prod.fst →
      some id ∈ s.recorded.map Prod.fst) : BoardOk t b := by
  rcases h with hidle | ⟨id, j, hid, hj, hnew, hres⟩
  · exact Or.inl hidle
  · exact Or.inr ⟨id, j, hid, hsent id j hj, fun hmem => hnew (hrec id hid hmem), hres⟩

section Poll

variable {n : Nat} {s : Sys} (h : Collecting n s) (hturn : s.turn < n)

include h hturn

/-- A board with a reply has one of this run's jobs, and the reply is not recorded yet. -/
theorem Collecting.reply (hreply : HasReply s.answer) :
    ∃ id j, (s.boards s.turn).origin = some id ∧ s.sent[id]? = some j ∧
      some id ∉ s.recorded.map Prod.fst ∧ IsResult j.message s.answer := by
  unfold Sys.answer Board.out at hreply ⊢
  rcases h.boards s.turn hturn with ⟨-, out, hout, hnone⟩ | ⟨id, j, hid, hj, hnew, hres⟩
  · rw [hout] at hreply
    exact absurd hreply hnone
  · refine ⟨id, j, hid, hj, hnew, ?_⟩
    cases hb : (s.boards s.turn).reply with
    | none =>
      rw [hb] at hreply
      exact absurd rfl hreply
    | some out => exact hres out hb

section Dispatched

variable {t : Sys} {d : Job} (hsent : t.sent = s.sent ++ [d])
  (hboards : t.boards = Function.update s.boards s.turn ⟨some s.sent.length, none⟩)

include hboards

include hsent

end Dispatched

end Poll

theorem Collecting.finish {n : Nat} {s : Sys} (h : Collecting n s) {i : Nat} {out : Buffer}
    (hi : i < n) (hbusy : (s.boards i).reply = none) (hout : s.MayReply (s.boards i).origin out) :
    Collecting n (s.finish i out) := by
  have horigin : ∀ k, ((s.finish i out).boards k).origin = (s.boards k).origin := by
    intro k
    rw [Sys.finish_boards]
    by_cases hk : k = i
    · rw [hk, Function.update_self]
    · rw [Function.update_of_ne hk]
  refine ⟨h.block, h.le, h.expected, h.last, fun k hk => ?_, fun k hk l hl id => ?_, h.once⟩
  · rw [Sys.finish_boards]
    by_cases hki : k = i
    · subst hki
      rw [Function.update_self]
      rcases h.boards k hk with ⟨-, out', hout', -⟩ | ⟨id, j, hid, hj, hnew, -⟩
      · rw [hbusy] at hout'
        cases hout'
      · obtain ⟨j', hj', hres⟩ := hout id hid
        refine Or.inr ⟨id, j', hid, hj', hnew, fun o ho => ?_⟩
        cases ho
        exact hres
    · rw [Function.update_of_ne hki]
      exact h.boards k hk
  · rw [horigin, horigin]
    exact h.distinct k hk l hl id

end DistHuffman.Main
