/-
# Descriptors

The kernel gives a number again as soon as it is closed, and nothing in the
library makes sure that the numbers of two connections differ: a `Connector` that
is started again closes the descriptor it has handed over, or hands it over a
second time, and a failed `accept4` gives -1 each time.  `Fresh` and `Undisturbed`
are the runs in which no code does so to a connection that exists.
-/

import Mutiplex.Connection.State
import Mutiplex.Connection.Kernel

namespace Mutiplex

open CMemory Transition

variable {τ : Type} [DecidableEq τ]

/-- Every job keeps `state_` of the event source right about the entry. -/
theorem Connection.Ran.tracked {conn : Connection} {c : ConnId} {table : Epoll ConnId}
    {registered : Bool} {job : Job} {effect : Effect}
    (hran : conn.Ran c table registered job effect) (h : conn.source.Tracked c table) :
    effect.conn.source.Tracked c effect.epoll := by
  cases hran with
  | error => exact h.disableAll.tracked
  | readEnds => exact h.disableOps
  | writesLast => exact h.disableOps
  | writesAll => exact h.disableOps
  | forceCloses => exact h.setInterestOps 0
  | appends => exact h.enableOps (by decide)
  | _ => exact h

namespace World

variable {w w' : World τ} {action : Action τ} {c : ConnId}

/-! ## Numbers -/

/-- A connection has the descriptor. -/
def hasFd (w : World τ) (fd : ℤ) : Bool :=
  (List.range w.nextId).any fun c => (w.conns c).any fun conn => conn.fd == fd

/-- The descriptor an action makes a connection of. -/
def Action.accepted : Action τ → Option ℤ
  | .user _ (.onNewConnection fd _) => some fd
  | _ => none

/-- The descriptor an action closes without owning it. -/
def Action.closed : Action τ → Option ℤ
  | .user _ (.closeFd fd) => some fd
  | _ => none

/-- A new connection gets a descriptor that no other connection has, or the -1 of
a failed `accept4`. -/
def Fresh (w : World τ) (action : Action τ) : Prop :=
  ∀ fd ∈ action.accepted, fd < 0 ∨ w.hasFd fd = false

instance : DecidableRel (Fresh : World τ → Action τ → Prop) :=
  fun w action => inferInstanceAs
    (Decidable (∀ fd ∈ action.accepted, fd < 0 ∨ w.hasFd fd = false))

/-- And nobody closes the descriptor of a connection but the connection. -/
def Undisturbed (w : World τ) (action : Action τ) : Prop :=
  w.Fresh action ∧ ∀ fd ∈ action.closed, w.hasFd fd = false

instance : DecidableRel (Undisturbed : World τ → Action τ → Prop) :=
  fun w action => inferInstanceAs
    (Decidable (w.Fresh action ∧ ∀ fd ∈ action.closed, w.hasFd fd = false))

omit [DecidableEq τ] in
theorem ne_of_hasFd {fd : ℤ} (hnumbered : w.Numbered) (hfd : w.hasFd fd = false) :
    ∀ c conn, w.conns c = some conn → conn.fd ≠ fd := by
  intro c conn hconn heq
  have hlt := hnumbered.live c conn hconn
  simp only [hasFd, List.any_eq_false, List.mem_range] at hfd
  simpa [hconn, heq] using hfd c hlt

/-- A connection that exists after a step existed before, with its descriptor, or
was just made of it. -/
theorem Moves.fd_origin (hmoves : Moves w action w') (hreach : machine.Reach Machine.anyStep w)
    {conn' : Connection} (hconn' : w'.conns c = some conn') :
    (∃ conn, w.conns c = some conn ∧ conn'.fd = conn.fd) ∨
      c = w.nextId ∧ action.accepted = some conn'.fd := by
  rcases hmoves.origin hreach hconn' with rfl | ⟨conn, hconn, hfd, -⟩
  · have hnone : ∀ conn, w.conns w.nextId ≠ some conn :=
      fun conn hconn => Nat.lt_irrefl _ ((reach_numbered hreach).live _ conn hconn)
    cases hmoves.fate (reach_loop hreach).1 (reach_loop_queues hreach) w.nextId with
    | born hnew _ _ heq _ haction =>
        cases heq.symm.trans hconn'
        subst hnew haction
        exact Or.inr ⟨rfl, rfl⟩
    | gone heq => cases heq.symm.trans hconn'
    | same heq => exact absurd (heq ▸ hconn') (hnone _)
    | posted heq => exact absurd (heq ▸ hconn') (hnone _)
    | callbacks hold => exact absurd hold (hnone _)
    | ran _ _ hold => exact absurd hold (hnone _)
  · exact Or.inl ⟨conn, hconn, hfd⟩

/-- Descriptors from 0 on tell the connections apart. -/
def Distinct (w : World τ) : Prop :=
  ∀ c c' conn conn', w.conns c = some conn → w.conns c' = some conn' → conn.fd = conn'.fd →
    c = c' ∨ conn.fd < 0

theorem reach_distinct (h : machine.Reach Fresh w) : w.Distinct := by
  refine reach_invariant Distinct ?_ ?_ h
  · intro thread c c' conn conn' hconn
    cases hconn
  · intro source action target hreach hinv hok hmoves c c' conn conn' hconn hconn' hfd
    have hother : ∀ {fd : ℤ} {other : ConnId} {old : Connection}, action.accepted = some fd →
        source.conns other = some old → old.fd = fd → fd < 0 := fun haccepted hold heq =>
      (hok _ haccepted).resolve_right fun hfree =>
        ne_of_hasFd (reach_numbered hreach) hfree _ _ hold heq
    rcases hmoves.fd_origin hreach.any hconn with ⟨old, hold, hsame⟩ | ⟨hc, haccepted⟩ <;>
      rcases hmoves.fd_origin hreach.any hconn' with ⟨old', hold', hsame'⟩ | ⟨hc', haccepted'⟩
    · rw [hsame]
      exact hinv c c' old old' hold hold' (hsame.symm.trans (hfd.trans hsame'))
    · right
      rw [hfd]
      exact hother haccepted' hold (hsame.symm.trans hfd)
    · exact Or.inr (hother haccepted hold' (hsame'.symm.trans hfd.symm))
    · exact Or.inl (hc.trans hc'.symm)

/-! ## Entries of registered sources -/

/-- Every event source has its entry as `state_` says. -/
def Tracked (w : World τ) : Prop :=
  ∀ c conn, w.conns c = some conn → conn.source.Tracked c w.epoll

omit [DecidableEq τ] in
/-- The connections with other descriptors keep their entries. -/
theorem Tracked.update (h : w.Tracked) (hbacked : w.Backed) (hdistinct : w.Distinct)
    {conn : Connection} (hconn : w.conns c = some conn) {value : Option Connection}
    (hconns : w'.conns = Function.update w.conns c value) (hnonneg : NonNegative w'.epoll)
    (hother : ∀ fd, fd ≠ conn.fd → w'.epoll fd = w.epoll fd)
    (hself : ∀ conn', value = some conn' → conn'.source.Tracked c w'.epoll) : w'.Tracked := by
  intro c' conn' hconn'
  by_cases hc : c' = c
  · subst hc
    rw [hconns, Function.update_self] at hconn'
    exact hself conn' hconn'
  · rw [hconns, Function.update_of_ne hc] at hconn'
    refine (h c' conn' hconn').congr ?_
    rw [(hbacked.conn c' conn' hconn').fd]
    by_cases hfd : conn'.fd = conn.fd
    · have hneg := (hdistinct c' c conn' conn hconn' hconn hfd).resolve_left hc
      rw [hnonneg.eq_none hneg, hbacked.nonneg.eq_none hneg]
    · exact hother _ hfd

theorem Tracked.apply (h : w.Tracked) (hbacked : w.Backed) (hdistinct : w.Distinct)
    {entry : Option (Posted τ Task)} {job : Job} {found : ConnState} {effect : Effect}
    {conn : Connection} {registered : Bool} (hconn : w.conns c = some conn)
    (hran : conn.Ran c w.epoll registered job effect) :
    (w.apply entry c job found effect).Tracked := by
  refine h.update hbacked hdistinct hconn rfl (hran.nonNegative hbacked.nonneg) ?_ ?_
  · exact fun fd hfd => hran.epoll_of_ne ((hbacked.conn c conn hconn).fd ▸ hfd)
  · intro conn' hconn'
    cases hconn'
    exact hran.tracked (h c conn hconn)

theorem Tracked.moves (h : w.Tracked) (hnumbered : w.Numbered) (hbacked : w.Backed)
    (hdistinct : w.Distinct) (hok : w.Undisturbed action) (hmoves : Moves w action w') :
    w'.Tracked := by
  cases hmoves with
  | loop => exact h
  | epollWait => exact h
  | pointers => exact h
  | posted => exact h
  | @destroyed _ gone held stack =>
      let before : World τ := { w with held := held, stack := stack }
      have hbacked' : before.Backed := ⟨hbacked.conn, hbacked.live, hbacked.nonneg⟩
      cases hconn : before.conns gone with
      | none =>
          have hsame : before.destroy gone = before := by simp [World.destroy, hconn]
          rw [hsame]
          exact h
      | some conn =>
          refine Tracked.update (w := before) h hbacked' hdistinct hconn (conns_destroy gone)
            (hbacked'.destroy gone).nonneg (fun fd hfd => ?_) (by simp)
          rw [epoll_destroy hconn, closeFd_of_ne _ hfd]
          exact EventSource.disableAll_of_ne ((hbacked'.conn gone conn hconn).fd ▸ hfd)
  | setCallbacks hconn =>
      refine h.update hbacked hdistinct hconn rfl hbacked.nonneg (fun _ _ => rfl) ?_
      intro conn' hconn'
      cases hconn'
      have hkept := h _ _ hconn
      exact hkept
  | @fdClosed _ fd =>
      intro c conn hconn
      refine (h c conn hconn).congr (closeFd_of_ne _ ?_)
      rw [(hbacked.conn c conn hconn).fd]
      exact ne_of_hasFd hnumbered (hok.2 fd rfl) c conn hconn
  | @born fd callbacks =>
      have habsent : w.epoll fd = none := by
        by_contra hsome
        obtain ⟨entry, hentry⟩ := Option.ne_none_iff_exists'.mp hsome
        obtain ⟨conn, hconn, hfd⟩ := hbacked.of_entry hentry
        rcases hok.1 fd rfl with hneg | hfree
        · exact absurd (hbacked.nonneg fd entry hentry) (not_le.mpr hneg)
        · exact ne_of_hasFd hnumbered hfree _ conn hconn hfd
      have hin : epollIn ≠ 0 := by decide
      have hsynced : (EventSource.new fd).Synced w.nextId w.epoll :=
        EventSource.synced_new habsent
      have hnew := (hsynced.enableOps hin).tracked
      intro c conn hconn
      by_cases hc : c = w.nextId
      · subst hc
        cases (Function.update_self ..).symm.trans hconn
        exact hnew
      · have hold : w.conns c = some conn := (Function.update_of_ne hc ..).symm.trans hconn
        refine (h c conn hold).congr ?_
        rw [(hbacked.conn c conn hold).fd]
        by_cases hfd : conn.fd = fd
        · rcases hok.1 fd rfl with hneg | hfree
          · rw [hfd, habsent]
            exact (hbacked.born hnumbered fd callbacks).nonneg.eq_none hneg
          · exact absurd hfd (ne_of_hasFd hnumbered hfree c conn hold)
        · exact EventSource.enableOps_of_ne _ hfd
  | exec hidle hstack hjob hconn hanswers hran =>
      apply Tracked.apply
      · exact h
      · exact ⟨hbacked.conn, hbacked.live, hbacked.nonneg⟩
      · exact hdistinct
      · exact hconn
      · exact hran
  | call hempty hcall hnext hstep hjob hconn hanswers hran =>
      apply Tracked.apply
      · exact h
      · exact ⟨hbacked.conn, hbacked.live, hbacked.nonneg⟩
      · exact hdistinct
      · exact hconn
      · exact hran

end World

end Mutiplex
