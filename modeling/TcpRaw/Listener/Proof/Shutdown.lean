import TcpRaw.Listener.Proof.Registry

/-!
# Shutdown of a listener

`closeAllFakeConns` closes the entries of `connMap` until there is none. An iteration removes its
entry only if the `FakeConn` was open: one that the application has closed stays for the cleaner to
delete, which may have returned. So the loop ends, with `connMap` empty, exactly if no `FakeConn` in
`connMap` is closed (`closeAll_ends_iff`).
-/

namespace Faketcp

open GoRt Common Trans

section
variable {l : Listener}

/-- The entry at a key has that key. -/
def EntryKeys (l : Listener) : Prop := ∀ k f, l.connMap.lookup k = some f → l.key f = some k

theorem entryKeys_of_reachable (hl : l.Reachable) : EntryKeys l := fun k f hf =>
  ((registry_of_reachable hl).entry k f hf).1

theorem fatchOneFakeConn_cases (l : Listener) (i : Nat) :
    l.fatchOneFakeConn i = none ∧ l.connMap.entries = [] ∨
      ∃ k f, l.fatchOneFakeConn i = some f ∧ l.connMap.lookup k = some f := by
  unfold Listener.fatchOneFakeConn
  cases he : l.connMap.entries with
  | nil => exact .inl ⟨rfl, rfl⟩
  | cons e es =>
    have hlt : i % (e :: es).length < (e :: es).length := Nat.mod_lt _ (Nat.succ_pos _)
    refine .inr ⟨(e :: es)[i % (e :: es).length].1, (e :: es)[i % (e :: es).length].2, ?_, ?_⟩
    · rw [List.getElem?_eq_getElem hlt]
      rfl
    · exact AList.mem_lookup_iff.2 (by rw [he]; exact List.getElem_mem hlt)

theorem closeNow_cases (hk : EntryKeys l) {k : AddrKey} {f : Nat}
    (hf : l.connMap.lookup k = some f) :
    ¬ l.Open f ∧ l.closeNow f = l ∨
      l.Open f ∧ (l.closeNow f).connMap = l.connMap.erase k ∧
        (∀ g, (l.closeNow f).key g = l.key g) ∧ ∀ g, (l.closeNow f).Open g ↔ g ≠ f ∧ l.Open g := by
  have hkey := hk k f hf
  obtain ⟨c, hc, -⟩ := Option.map_eq_some_iff.1 hkey
  have hlt := (List.getElem?_eq_some_iff.1 hc).1
  unfold Listener.closeNow
  rw [hc]
  dsimp only
  cases hcl : c.closed with
  | true =>
    refine .inl ⟨?_, if_pos rfl⟩
    rintro ⟨c', hc', hcl'⟩
    rw [hc] at hc'
    cases hc'
    rw [hcl] at hcl'
    cases hcl'
  | false =>
    have hset : (l.conns.set f { c with closed := true })[f]? = some { c with closed := true } :=
      List.getElem?_set_self hlt
    have hsame : c.addr.key = k := by
      rw [Listener.key, hc] at hkey
      exact Option.some.inj hkey
    rw [if_neg Bool.false_ne_true, Listener.beginClose, hc]
    dsimp only
    rw [hcl, if_neg Bool.false_ne_true, Listener.finishClose, AList.lookup_insert]
    refine .inr ⟨⟨c, hc, hcl⟩, ?_, fun g => ?_, fun g => ?_⟩
    · simp [GoMap.eraseAll, Listener.key, hset, hsame]
    · by_cases hg : g = f
      · subst hg
        simp [Listener.key, List.getElem?_set_self hlt, hc]
      · simp [Listener.key, List.getElem?_set_ne (Ne.symm hg)]
    · by_cases hg : g = f
      · subst hg
        simp [Listener.Open, List.getElem?_set_self hlt]
      · simp [Listener.Open, List.getElem?_set_ne (Ne.symm hg), hg]

theorem entryKeys_closeNow (hk : EntryKeys l) {k : AddrKey} {f : Nat}
    (hf : l.connMap.lookup k = some f) : EntryKeys (l.closeNow f) := by
  rcases closeNow_cases hk hf with ⟨-, he⟩ | ⟨-, hmap, hkey, -⟩
  · rw [he]
    exact hk
  · intro k' g hg
    rw [hmap, GoMap.lookup_erase_of] at hg
    split at hg
    · cases hg
    · exact (hkey g).trans (hk k' g hg)

/-- **A closed `FakeConn` stays in `connMap`**, so the loop does not end. -/
theorem closeAll_closed_runs (pick : Nat → Nat) {k : AddrKey} {f : Nat} (n : Nat) :
    ∀ (i : Nat) {l : Listener}, EntryKeys l → l.connMap.lookup k = some f → ¬ l.Open f →
      l.closeAllFakeConns pick n i = none := by
  induction n with
  | zero => exact fun _ _ _ _ _ => rfl
  | succ n ih =>
    intro i l hk hf hcl
    rw [Listener.closeAllFakeConns]
    rcases fatchOneFakeConn_cases l (pick i) with ⟨-, hnil⟩ | ⟨k', g, hg, hlook⟩
    · have hmem := AList.mem_lookup_iff.1 hf
      rw [hnil] at hmem
      cases hmem
    · rw [hg]
      apply ih (i + 1) (entryKeys_closeNow hk hlook)
      · rcases closeNow_cases hk hlook with ⟨-, he⟩ | ⟨hopen, hmap, -, -⟩
        · rw [he]
          exact hf
        · -- the entry that goes is another's
          rw [hmap, GoMap.lookup_erase_of, if_neg, hf]
          rintro rfl
          rw [hf] at hlook
          cases hlook
          exact hcl hopen
      · rcases closeNow_cases hk hlook with ⟨-, he⟩ | ⟨-, -, -, hopen⟩
        · rw [he]
          exact hcl
        · exact fun ho => hcl ((hopen f).1 ho).2

theorem length_entries_erase {k : AddrKey} {f : Nat} (hf : l.connMap.lookup k = some f) :
    (l.connMap.erase k).entries.length + 1 = l.connMap.entries.length := by
  have hmem : k ∈ l.connMap.keys := AList.mem_keys.1 (AList.lookup_isSome.1 (by rw [hf]; rfl))
  have hlen := List.length_erase_of_mem hmem
  have hpos := List.length_pos_of_mem hmem
  rw [← AList.keys_erase] at hlen
  simp only [AList.keys, List.keys, List.length_map] at hlen hpos
  omega

/-- **Open `FakeConn`s are closed one by one**, until `connMap` is empty. -/
theorem closeAll_open_ends (pick : Nat → Nat) (n : Nat) :
    ∀ (i : Nat) {l : Listener}, EntryKeys l → (∀ k f, l.connMap.lookup k = some f → l.Open f) →
      l.connMap.entries.length = n →
      ∃ l', l.closeAllFakeConns pick (n + 1) i = some l' ∧ l'.connMap = ∅ := by
  induction n with
  | zero =>
    intro i l _ _ hlen
    have hnil := List.length_eq_zero_iff.1 hlen
    rcases fatchOneFakeConn_cases l (pick i) with ⟨hnone, -⟩ | ⟨k, f, -, hlook⟩
    · exact ⟨l, by rw [Listener.closeAllFakeConns, hnone], AList.ext hnil⟩
    · have hmem := AList.mem_lookup_iff.1 hlook
      rw [hnil] at hmem
      cases hmem
  | succ n ih =>
    intro i l hk hopen hlen
    rcases fatchOneFakeConn_cases l (pick i) with ⟨-, hnil⟩ | ⟨k, f, hf, hlook⟩
    · rw [hnil] at hlen
      cases hlen
    rw [Listener.closeAllFakeConns, hf]
    rcases closeNow_cases hk hlook with ⟨hcl, -⟩ | ⟨-, hmap, -, hstill⟩
    · exact absurd (hopen k f hlook) hcl
    · apply ih (i + 1) (entryKeys_closeNow hk hlook)
      · intro k' g hg
        rw [hmap, GoMap.lookup_erase_of] at hg
        split at hg
        · cases hg
        · rename_i hne
          refine (hstill g).2 ⟨?_, hopen k' g hg⟩
          rintro rfl
          exact hne (Option.some.inj ((hk k' _ hg).symm.trans (hk k _ hlook)))
      · have := length_entries_erase hlook
        rw [hmap]
        omega

/-- **When shutdown terminates.** In every reachable state of a listener: for every choice of
entries, the loop of `closeAllFakeConns` ends after finitely many iterations with `connMap` empty,
exactly if no `FakeConn` in `connMap` is closed already. -/
theorem closeAll_ends_iff (hl : l.Reachable) :
    (∀ pick, ∃ n l', l.closeAllFakeConns pick n 0 = some l' ∧ l'.connMap = ∅) ↔
      ∀ k f, l.connMap.lookup k = some f → l.Open f := by
  have hk := entryKeys_of_reachable hl
  constructor
  · intro hend k f hf
    by_contra hcl
    obtain ⟨n, l', hrun, -⟩ := hend fun _ => 0
    rw [closeAll_closed_runs _ n 0 hk hf hcl] at hrun
    cases hrun
  · intro hopen pick
    obtain ⟨l', hrun, hempty⟩ := closeAll_open_ends pick _ 0 hk hopen rfl
    exact ⟨_, l', hrun, hempty⟩

end

theorem open_iff_closed {l : Listener} {f : Nat} {b : Bool}
    (h : (l.conns.map (·.closed))[f]? = some b) : l.Open f ↔ b = false := by
  rw [List.getElem?_map] at h
  obtain ⟨c, hc, rfl⟩ := Option.map_eq_some_iff.1 h
  simp [Listener.Open, hc]

/-- Shutdown with one open `FakeConn`. -/
theorem closeAll_ends_iff_open :
    ∃ l, exec Listener.step [.recv [1] peerA, .advance, .advance, .advance, .advance, .advance,
        .accept, .cancel, .cleanerExit] (Listener.new 0) = some l ∧
      ∀ pick, ∃ n l', l.closeAllFakeConns pick n 0 = some l' ∧ l'.connMap = ∅ := by
  have hrun : (exec Listener.step [.recv [1] peerA, .advance, .advance, .advance, .advance,
      .advance, .accept, .cancel, .cleanerExit] (Listener.new 0)).map (fun l =>
        (l.connMap.entries, l.conns.map (·.closed))) =
      some ([⟨peerA.key, 0⟩], [false]) := by decide +kernel
  obtain ⟨l, hl, hrun⟩ := Option.map_eq_some_iff.1 hrun
  obtain ⟨hmap, hclosed⟩ := Prod.mk.inj hrun
  refine ⟨l, hl, (closeAll_ends_iff (reachable_exec hl)).2 fun k f hf => ?_⟩
  have hmem := AList.mem_lookup_iff.1 hf
  rw [hmap, List.mem_singleton] at hmem
  cases hmem
  exact (open_iff_closed (f := 0) (by rw [hclosed]; rfl)).2 rfl

/-- **Shutdown that never ends**: the application has closed its `FakeConn`, the listener is closed
within the ten seconds that the deletion waits, and the cleaner has returned. -/
theorem closeAll_spins :
    ∃ l : Listener, l.Reachable ∧ l.cancelled = true ∧ l.cleanerDone = true ∧
      ∀ pick n, l.closeAllFakeConns pick n 0 = none := by
  have hrun : (exec Listener.step [.recv [1] peerA, .advance, .advance, .advance, .advance,
      .advance, .accept, .close 0, .finish 0, .cancel, .cleanerExit] (Listener.new 0)).map (fun l =>
        (l.cancelled && l.cleanerDone, l.connMap.lookup peerA.key, l.conns.map (·.closed))) =
      some (true, some 0, [true]) := by decide +kernel
  obtain ⟨l, hl, hrun⟩ := Option.map_eq_some_iff.1 hrun
  simp only [Prod.mk.injEq, Bool.and_eq_true] at hrun
  obtain ⟨⟨hcancel, hdone⟩, hlook, hclosed⟩ := hrun
  have hreach := reachable_exec hl
  refine ⟨l, hreach, hcancel, hdone, fun pick n => ?_⟩
  refine closeAll_closed_runs pick n 0 (entryKeys_of_reachable hreach) hlook fun ho => ?_
  cases (open_iff_closed (f := 0) (by rw [hclosed]; rfl)).1 ho

end Faketcp
