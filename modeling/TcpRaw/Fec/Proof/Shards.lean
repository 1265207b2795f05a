import TcpRaw.Fec.Encoder
import TcpRaw.Fec.Stream

/-!
# The shard cache of an encoder

What the stages of an encoder do with the slices of its shard cache, for a FEC header at any offset:
the header written in place (`putHeader_at`), a tail zeroed (`zeroTail_ok`), the headers stripped
for the codec (`stripHeaders_at`) and the parity written back (`writeParity_at`). The codec sees the
part of a slice's array between the payload's offset and the size of the longest shard (`bodyFrom`).
-/

namespace Faketcp

open GoRt Erasure

/-- The part of a slice's array from `o` up to `m`. -/
def bodyFrom (o m : Nat) (s : Slice UInt8) : Bytes := (s.arr.take m).drop o

/-- A header written in place. -/
theorem putHeader_at {s : Slice UInt8} {o : Nat} (h : o + 6 ≤ s.len) (seqid : UInt32)
    (flag : UInt16) :
    ∃ t, putHeader s o seqid flag = .ok t ∧ t.len = s.len ∧ t.cap = s.cap ∧
      t.arr = overwrite s.arr o (leBytes32 seqid ++ leBytes16 flag) ∧
      t.data = overwrite s.data o (leBytes32 seqid ++ leBytes16 flag) := by
  have hlen : o + 6 = o + (leBytes32 seqid ++ leBytes16 flag).length := rfl
  obtain ⟨t, ht, hd, hl, hc, harr⟩ := Slice.copyRange_data hlen h
  exact ⟨t, by rw [putHeader, if_pos h, ht], hl, hc, harr, hd⟩

/-- A shard's tail zeroed up to `m`: its body is padded. -/
theorem zeroTail_ok {s : Slice UInt8} {o m k : Nat} (ho : o ≤ s.len) (hl : s.len ≤ m)
    (hm : m ≤ s.cap) (hk : m - s.len ≤ k) :
    ∃ t, s.copyRange s.len m (List.replicate k 0) = .ok t ∧ t.cap = s.cap ∧
      bodyFrom o m t = padTo (m - o) (s.data.drop o) := by
  obtain ⟨t, ht, harr, -, htc⟩ := Slice.copyRange_ok hl hm (List.replicate k 0)
  refine ⟨t, ht, htc, ?_⟩
  rw [List.take_replicate, Nat.min_eq_left hk] at harr
  rw [bodyFrom, harr, Slice.take_overwrite_end s.le_cap (by rw [List.length_replicate]; omega),
    List.drop_append_of_le_length (by
      rw [List.length_take]
      exact Nat.le_min.2 ⟨ho, Nat.le_trans ho s.le_cap⟩), padTo, List.length_drop,
      Slice.length_data]
  congr 2
  omega

theorem stripHeaders_at {o m : Nat} (ho : o ≤ m) :
    ∀ (shards : List (Slice UInt8)), (∀ s ∈ shards, m ≤ s.cap) →
      ∃ out, stripHeaders o m shards = .ok out ∧ out.map Slice.data = shards.map (bodyFrom o m)
  | [], _ => ⟨[], rfl, rfl⟩
  | s :: shards, h => by
    obtain ⟨out, hout, hd⟩ := stripHeaders_at ho shards fun s' hs' => h s' (by simp [hs'])
    obtain ⟨t, ht, htd⟩ := Slice.range_ok ho (h s (by simp))
    refine ⟨t :: out, ?_, ?_⟩
    · rw [stripHeaders, ht, ok_bind, hout]
      rfl
    · rw [List.map_cons, hd, List.map_cons, htd, bodyFrom]

theorem writeParity_at {o m : Nat} (ho : o ≤ m) :
    ∀ (shards : List (Slice UInt8)) (parity : List Bytes), parity.length = shards.length →
      (∀ s ∈ parity, s.length = m - o) → (∀ s ∈ shards, m ≤ s.cap ∧ o ≤ s.len) →
      ∃ out, writeParity o m shards parity = .ok out ∧ out.map (bodyFrom o m) = parity ∧
        out.map (fun s => (s.cap, s.len)) = shards.map fun s => (s.cap, s.len)
  | [], [], _, _, _ => ⟨[], rfl, rfl, rfl⟩
  | s :: shards, q :: parity, hlen, hsize, h => by
    obtain ⟨hc, hl⟩ := h s (by simp)
    have hq := hsize q (by simp)
    obtain ⟨out, hout, hb, hcl⟩ := writeParity_at ho shards parity (by simpa using hlen)
      (fun s' hs' => hsize s' (by simp [hs'])) fun s' hs' => h s' (by simp [hs'])
    obtain ⟨t, ht, harr, htl, htc⟩ := Slice.copyRange_ok ho hc q
    have hbody : bodyFrom o m t = q := by
      have hle : o ≤ s.arr.length := Nat.le_trans hl s.le_cap
      rw [List.take_of_length_le (by omega)] at harr
      rw [bodyFrom, harr, Slice.take_overwrite_end hle (by omega), List.drop_left' (by
        rw [List.length_take]; omega)]
    refine ⟨t :: out, ?_, by simp [hb, hbody], by simp [hcl, htl, htc]⟩
    rw [writeParity, List.headD_cons, ht, ok_bind, List.tail_cons, hout]
    rfl

theorem exists_of_map_eq {α β γ : Type} {f : α → γ} {g : β → γ} {l : List α} {l' : List β}
    (h : l.map f = l'.map g) {x : α} (hx : x ∈ l) : ∃ y ∈ l', g y = f x :=
  List.mem_map.1 (h ▸ List.mem_map_of_mem hx)

end Faketcp
