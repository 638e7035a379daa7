import Lineth.Lib.Lockstep
import Lineth.Compressor.RoundTrip

/-!
# What a refused block leaves behind

A block is refused when `Write` does not append it. The compressor has then been reverted, so that no later call
notices (`run_like`), unless the blocks before it had to be compressed anew: that keeps their bytes, but not the
compressor. -/

namespace Lineth.Compressor

open Evm (Byte)
open Exec List

variable {κ : Type}

/-- The compressor's `Revert` is exact: what it restores, like what `Reset` leaves, behaves as the `Same` compressor. -/
structure Lzss.Exact (Z : Lzss κ) (Valid : κ → Prop) (Same : κ → κ → Prop) : Prop where
  refl : ∀ k, Same k k
  writtenBytes : ∀ k k', Same k k' → Z.writtenBytes k = Z.writtenBytes k'
  write : ∀ k k' d, Same k k' → Z.write k d = Z.write k' d
  reset : ∀ k k', Valid k → Valid k' → Same (Z.reset k) (Z.reset k')
  revert : ∀ k d, Valid k → Same (Z.revert (Z.write k d).2).2 k

namespace BlobMaker

/-- The payload is compressed in one go. -/
def recompressed (env : Env κ) (bm : BlobMaker κ) : BlobMaker κ :=
  { bm with compressor := (env.lzss.write (env.lzss.reset bm.compressor) (env.lzss.writtenBytes bm.compressor)).2 }

/-- `Write` returns without appending the block. -/
def Refused (env : Env κ) (bm : BlobMaker κ) (rlpBlock : List Byte) (forceReset : Bool) (s : BlobMaker κ) : Prop :=
  (∃ ok, write env rlpBlock forceReset bm = .ok ok s ∧ (ok && !forceReset) = false) ∨
    ∃ err, write env rlpBlock forceReset bm = .error err s ∧ err.panics = false

def returned {ε σ α : Type} : EStateM.Result ε σ α → Except ε α
  | .ok a _ => .ok a
  | .error e _ => .error e

theorem returned_eq_ok {ε σ α : Type} {x : EStateM.Result ε σ α} {a : α} (h : returned x = .ok a) :
    ∃ s, x = .ok a s := by
  cases x with
  | ok b s =>
    cases h
    exact ⟨s, rfl⟩
  | error err s => cases h

/-- All that a caller can tell of a blob maker. -/
structure SameView (env : Env κ) (p q : History κ) : Prop where
  accepted : p.accepted = q.accepted
  header : p.maker.header = q.maker.header
  currentBlob : p.maker.currentBlob = q.maker.currentBlob
  bytes : p.maker.bytes env = q.maker.bytes env
  write : ∀ rlpBlock forceReset,
    returned (write env rlpBlock forceReset p.maker) = returned (write env rlpBlock forceReset q.maker)

/-- Blob makers whose compressors are the same. -/
def Like (Same : κ → κ → Prop) (s bm : BlobMaker κ) : Prop :=
  ∃ k, s = { bm with compressor := k } ∧ Same k bm.compressor

variable {env : Env κ} {Valid : κ → Prop} {Same : κ → κ → Prop} {dict : List Byte} {checksum : Evm.Word} {v : BitVec 16}
  {limit : Int} {acc : Accepted} {bm s : BlobMaker κ} {e rlpBlock : List Byte} {forceReset : Bool}

theorem like_of_eq (hX : env.lzss.Exact Valid Same) {s t : BlobMaker κ} (h : t = s) : Like Same s t :=
  ⟨s.compressor, by rw [h], by rw [h]; exact hX.refl _⟩

/-! ### Blob makers that nobody can tell apart -/

section

variable (hX : env.lzss.Exact Valid Same)

include hX

/-- The same compressors are one and the same as soon as a block is written. -/
theorem write_lockstep (h : Like Same s bm) (rlpBlock : List Byte) (forceReset : Bool) :
    lockstep (write env rlpBlock forceReset) (write env rlpBlock forceReset) (fun _ => Like Same) (Like Same) s bm := by
  obtain ⟨k, rfl, hk⟩ := h
  unfold write
  refine lockstep_get_bind ?_
  dsimp only
  rw [hX.writtenBytes _ _ hk]
  cases env.decodeBlock rlpBlock with
  | none => exact lockstep_throw ⟨k, rfl, hk⟩
  | some block =>
    dsimp only
    cases encodeBlockForCompression env.rlp block with
    | error err => exact lockstep_throw ⟨k, rfl, hk⟩
    | ok e =>
      refine lockstep_bind ?_
      show (env.lzss.write bm.compressor e).1 = (env.lzss.write k e).1 ∧
        lockstep _ _ _ _ { bm with compressor := (env.lzss.write k e).2 }
          { bm with compressor := (env.lzss.write bm.compressor e).2 }
      rw [hX.write _ _ e hk]
      exact ⟨rfl, lockstep_mono (lockstep_self _ _) (fun _ _ _ => like_of_eq hX)
        (fun _ _ => like_of_eq hX)⟩

theorem Like.sameView (h : Like Same s bm) : SameView env ⟨s, acc⟩ ⟨bm, acc⟩ := by
  have hwrite : ∀ rlpBlock forceReset,
      returned (write env rlpBlock forceReset s) = returned (write env rlpBlock forceReset bm) := by
    intro rlpBlock forceReset
    obtain ⟨ok, t, t', hs, hbm, -⟩ | ⟨err, t, t', hs, hbm, -⟩ := (write_lockstep hX h rlpBlock forceReset).cases
    · rw [hs, hbm]; rfl
    · rw [hs, hbm]; rfl
  obtain ⟨k, rfl, hk⟩ := h
  refine ⟨rfl, rfl, rfl, ?_, hwrite⟩
  unfold BlobMaker.bytes
  dsimp only
  rw [hX.writtenBytes _ _ hk]

theorem step_like (hs : Valid s.compressor) (h : Valid bm.compressor)
    (hlike : Like Same s bm) (c : Call) :
    (History.step env ⟨s, acc⟩ c = none ∧ History.step env ⟨bm, acc⟩ c = none) ∨
      ∃ s' bm' acc', History.step env ⟨s, acc⟩ c = some ⟨s', acc'⟩ ∧ History.step env ⟨bm, acc⟩ c = some ⟨bm', acc'⟩ ∧
        Like Same s' bm' := by
  cases c with
  | startNewBatch =>
    obtain ⟨k, rfl, hk⟩ := hlike
    exact .inr ⟨_, _, _, rfl, rfl, k, rfl, hk⟩
  | reset =>
    obtain ⟨k, rfl, hk⟩ := hlike
    exact .inr ⟨_, _, _, rfl, rfl, env.lzss.reset k, rfl, hX.reset _ _ hs h⟩
  | write rlpBlock forceReset =>
    obtain ⟨ok, t, t', hwrite, hwrite', hlike⟩ | ⟨err, t, t', hwrite, hwrite', hlike⟩ :=
      (write_lockstep hX hlike rlpBlock forceReset).cases
    · simp only [History.step, hwrite, hwrite']
      exact .inr ⟨_, _, _, rfl, rfl, hlike⟩
    · simp only [History.step, hwrite, hwrite']
      cases err.panics with
      | true => exact .inl ⟨rfl, rfl⟩
      | false => exact .inr ⟨_, _, _, rfl, rfl, hlike⟩

end

theorem run_like (hZ : env.lzss.Lawful dict Valid) (hX : env.lzss.Exact Valid Same)
    (hs : Holds env Valid dict checksum v limit acc s) (h : Holds env Valid dict checksum v limit acc bm)
    (hlike : Like Same s bm) (later : List Call) :
    Option.Rel (SameView env) (History.run env ⟨s, acc⟩ later) (History.run env ⟨bm, acc⟩ later) := by
  induction later generalizing s bm acc with
  | nil => exact .some (hlike.sameView hX)
  | cons c later ih =>
    simp only [History.run, foldlM_cons, Option.bind_eq_bind]
    obtain ⟨hnone, hnone'⟩ | ⟨s', bm', acc', hstep, hstep', hlike'⟩ := step_like hX hs.valid h.valid hlike c
    · rw [hnone, hnone']
      exact .none
    · rw [hstep, hstep']
      exact ih (step_holds hZ hs hstep) (step_holds hZ h hstep') hlike'

/-! ### Refused blocks -/

section

variable (hZ : env.lzss.Lawful dict Valid)

include hZ

section

variable (hX : env.lzss.Exact Valid Same) (h : Holds env Valid dict checksum v limit acc bm)

include hX h

theorem Refused.like (hs : Refused env bm rlpBlock forceReset s) :
    Holds env Valid dict checksum v limit acc s ∧
      (Like Same s bm ∨ (∃ e, encoding env rlpBlock = some e ∧ Recompresses env bm e) ∧ s = bm.recompressed env) := by
  have hspec := write_outcome hZ h rlpBlock forceReset
  rcases hs with ⟨ok, hwrite, hno⟩ | ⟨err, hwrite, hpanics⟩
  · obtain ⟨e, henc, -, hundone⟩ := hspec.ok hwrite
    rw [hno] at hundone
    refine ⟨Undone.holds hundone h, ?_⟩
    obtain ⟨k, rfl, -, -, rfl | ⟨hanew, k', hk', rfl⟩⟩ := hundone
    · exact .inl ⟨_, rfl, hX.revert _ _ h.valid⟩
    · refine .inr ⟨⟨e, henc, hanew⟩, ?_⟩
      rw [recompressed, hX.write _ _ _ (hX.reset k' bm.compressor hk' h.valid)]
  · rcases hspec.error hwrite with ⟨rfl, -⟩ | ⟨-, ⟨-, rfl⟩ | ⟨e, -, -, rfl⟩⟩
    · cases hpanics
    · exact ⟨h, .inl (like_of_eq hX rfl)⟩
    · exact ⟨(undone_revert hZ h.valid e).holds h, .inl ⟨_, rfl, hX.revert _ _ h.valid⟩⟩

theorem Undone.appendable (hs : Undone env Valid bm e s) (happend : Appendable env bm e) :
    Appendable env s e := by
  obtain ⟨header, hheader, hsmall, hroom⟩ := happend
  obtain ⟨k, rfl, hk, hwritten, hcase⟩ := hs
  refine ⟨header, hheader, by rwa [hwritten], ?_⟩
  rcases hcase with rfl | ⟨⟨header', hheader', hgt⟩, -⟩
  · rw [hX.write _ _ e (hX.revert _ e h.valid), hwritten]
    exact hroom
  · -- the block has to be compressed anew this time, too
    cases hheader.symm.trans hheader'
    have hle : (env.lzss.writtenBytes bm.compressor ++ e).length ≤ maxInputSize := by
      unfold maxUncompressedBytes at hsmall
      unfold maxInputSize
      omega
    have hanew := hroom.resolve_left (not_le.mpr hgt)
    have hreset := hX.reset (env.lzss.write k e).2 (env.lzss.write bm.compressor e).2
      (hZ.write k e hk (by rwa [hwritten])).2.1 (hZ.write _ e h.valid hle).2.1
    unfold FitsAnew at hanew ⊢
    rw [hwritten, hX.write _ _ _ hreset]
    exact .inr hanew

end

theorem write_of_appendable (h : Holds env Valid dict checksum v limit acc bm)
    (hlimit : limit ≤ maxOutputSize) (henc : encoding env rlpBlock = some e) (happend : Appendable env bm e) :
    ∃ s, write env rlpBlock forceReset bm = .ok true s := by
  have hspec := write_outcome hZ h rlpBlock forceReset
  cases hwrite : write env rlpBlock forceReset bm with
  | ok ok s =>
    obtain ⟨e', henc', hiff, -⟩ := hspec.ok hwrite
    cases henc.symm.trans henc'
    rw [hiff.mpr happend]
    exact ⟨s, rfl⟩
  | error err s =>
    rcases hspec.error hwrite with ⟨-, hlarge⟩ | ⟨-, ⟨hnone, -⟩ | ⟨e', henc', hlarge, -⟩⟩
    · omega
    · rw [henc] at hnone
      cases hnone
    · cases henc.symm.trans henc'
      obtain ⟨header, -, hsmall, -⟩ := happend
      unfold maxUncompressedBytes at hsmall
      unfold maxInputSize at hlarge
      omega

end

/-- A refused block leaves the header, the blob and the accepted blocks as they are. Unless the payload was compressed
anew, nothing that is called later tells it from a block that was never tried. A block that was tried with success is
then appended, for limits within the buffer of the blob maker. -/
theorem refused_write_undone {dictFile : List Byte} (hZ : env.lzss.Lawful (env.lzss.augmentDict dictFile) Valid)
    (hX : env.lzss.Exact Valid Same) (hnew : newVersionedBlobMaker env v limit dictFile = some bm) (calls : List Call)
    {r : History κ} (hrun : History.run env ⟨bm, {}⟩ calls = some r) (rlpBlock : List Byte) :
    (∀ forceReset s, Refused env r.maker rlpBlock forceReset s →
      s.header = r.maker.header ∧ s.currentBlob = r.maker.currentBlob ∧
      env.lzss.writtenBytes s.compressor = env.lzss.writtenBytes r.maker.compressor ∧
      ((∀ later, Option.Rel (SameView env) (History.run env ⟨s, r.accepted⟩ later) (History.run env r later)) ∨
        (∃ e, encoding env rlpBlock = some e ∧ Recompresses env r.maker e) ∧ s = r.maker.recompressed env)) ∧
    (limit ≤ maxOutputSize → ∀ s, write env rlpBlock true r.maker = .ok true s →
      ∃ s', write env rlpBlock false s = .ok true s') := by
  obtain ⟨checksum, hholds⟩ := new_holds hZ hnew
  have h := run_holds (r := ⟨bm, {}⟩) hZ hholds hrun
  refine ⟨fun forceReset s hs => ?_, fun hlimit s hwrite => ?_⟩
  · obtain ⟨hs, hlike⟩ := hs.like hZ hX h
    have hwritten := hs.written.trans h.written.symm
    rcases hlike with hlike | ⟨hanew, rfl⟩
    · have hlater := run_like hZ hX hs h hlike
      obtain ⟨k, rfl, -⟩ := hlike
      exact ⟨rfl, rfl, hwritten, .inl hlater⟩
    · exact ⟨rfl, rfl, hwritten, .inr ⟨hanew, rfl⟩⟩
  · obtain ⟨e, henc, hiff, hundone⟩ := (write_outcome hZ h rlpBlock true).ok hwrite
    exact write_of_appendable hZ (Undone.holds hundone h) hlimit henc (Undone.appendable hZ hX h hundone (hiff.mp rfl))

/-- A compressor that stores its input, with a mark for every write. -/
def marking : Lzss (List (List Byte)) where
  newCompressor _ := some []
  reset _ := []
  write k d := (decide ((k.flatten ++ d).length ≤ maxInputSize), k ++ [d])
  revert k := (true, k.dropLast)
  considerBypassing k := (false, k)
  bytes k := k.map (fun _ => 1) ++ 0 :: k.flatten
  writtenBytes k := k.flatten
  decompress b _ := some ((b.dropWhile (· = 1)).drop 1)
  augmentDict d := d

theorem marking_lawful (dict : List Byte) : marking.Lawful dict (fun _ => True) where
  new := by
    rintro k ⟨⟩
    exact ⟨trivial, rfl⟩
  reset _ _ := ⟨trivial, rfl⟩
  write k d _ hle := ⟨decide_eq_true hle, trivial, flatten_concat⟩
  write_large k d _ hlt := decide_eq_false (Nat.not_le.mpr hlt)
  revert k d _ := ⟨rfl, trivial, congrArg flatten dropLast_concat, congrArg marking.bytes dropLast_concat⟩
  bypass _ _ := ⟨trivial, rfl⟩
  decompress k _ := by
    show some (((k.map (fun _ => 1) ++ 0 :: k.flatten).dropWhile (· = 1)).drop 1) = some k.flatten
    rw [dropWhile_append_of_pos (by simp)]
    rfl

theorem marking_exact : marking.Exact (fun _ => True) Eq where
  refl _ := rfl
  writtenBytes _ _ h := congrArg marking.writtenBytes h
  write _ _ d h := congrArg (marking.write · d) h
  reset _ _ _ _ := rfl
  revert _ _ _ := dropLast_concat

def markingEnv : Env (List (List Byte)) := { sampleEnv with lzss := marking }

def markingMaker : BlobMaker (List (List Byte)) := ⟨160, [], [], [[], [(7, [])]], 1, ⟨[], [], 7, 1⟩, []⟩

theorem refused_write_undone_sample :
    ∃ r s s' s'', History.run markingEnv ⟨markingMaker, {}⟩ [.write [2] false, .write [2] false] = some r ∧
      write markingEnv [1] false r.maker = .ok false s ∧ s.header = r.maker.header ∧
      s.currentBlob = r.maker.currentBlob ∧
      write markingEnv [2] true r.maker = .ok true s' ∧ write markingEnv [2] false s' = .ok true s'' := by
  have hreturns : (History.run markingEnv ⟨markingMaker, {}⟩ [.write [2] false, .write [2] false]).map
      (fun r => (returned (write markingEnv [1] false r.maker), returned (write markingEnv [2] true r.maker))) =
        some (.ok false, .ok true) := by decide +kernel
  obtain ⟨r, hrun, hr⟩ := Option.map_eq_some_iff.mp hreturns
  obtain ⟨s, hs⟩ := returned_eq_ok (congrArg Prod.fst hr)
  obtain ⟨s', hs'⟩ := returned_eq_ok (congrArg Prod.snd hr)
  have hmain := refused_write_undone (marking_lawful _) marking_exact
    (show newVersionedBlobMaker markingEnv 1 160 [] = some markingMaker from rfl) _ hrun
  obtain ⟨hheader, hblob, -⟩ := (hmain [1]).1 false s (.inl ⟨false, hs, rfl⟩)
  obtain ⟨s'', hs''⟩ := (hmain [2]).2 (by decide) s' hs'
  exact ⟨r, s, s', s'', hrun, hs, hheader, hblob, hs', hs''⟩

/-- A longer block is refused after two blocks. They have been compressed in one go, which the third block's blob
shows. -/
theorem refused_write_recompresses :
    marking.Lawful [] (fun _ => True) ∧ marking.Exact (fun _ => True) Eq ∧
    newVersionedBlobMaker markingEnv 1 160 [] = some markingMaker ∧
    (History.run markingEnv ⟨markingMaker, {}⟩ [.write [2] false, .write [2] false]).map
        (fun r => returned (write markingEnv [1] false r.maker)) = some (.ok false) ∧
    (History.run markingEnv ⟨markingMaker, {}⟩ [.write [2] false, .write [2] false,
      .write [1] false, .write [2] false]).map
        (fun r => r.maker.currentBlob) ≠
      (History.run markingEnv ⟨markingMaker, {}⟩ [.write [2] false, .write [2] false, .write [2] false]).map
        (fun r => r.maker.currentBlob) := by
  refine ⟨marking_lawful _, marking_exact, rfl, ?_⟩
  decide +kernel

end BlobMaker

end Lineth.Compressor
