import Lineth.Ssz.Container

/-!
# Nested values

The parts of a container or of a list are themselves serialized values, to any depth. Two values of one schema are not
written as the same bytes: those of the outer value give back its parts, and each part its value. -/

namespace Lineth.Ssz

open Evm (Byte)
open Except List

variable {ctx : String}

/-- Bytes of a known size or of any size, lists of variable parts and containers. -/
inductive Schema
  | bytes (size : Option Nat)
  | list (element : Schema)
  | container (fields : List Schema)

mutual

def Value : Schema → Type
  | .bytes (some n) => { bs : List Byte // bs.length = n }
  | .bytes none => List Byte
  | .list s => List (Value s)
  | .container fs => Values fs

def Values : List Schema → Type
  | [] => Unit
  | s :: fs => Value s × Values fs

end

mutual

def Schema.isVariable : Schema → Bool
  | .bytes n => n.isNone
  | .list _ => true
  | .container fs => anyVariable fs

def anyVariable : List Schema → Bool
  | [] => false
  | s :: fs => s.isVariable || anyVariable fs

end

mutual

def encode : (s : Schema) → Value s → Except String (List Byte)
  | .bytes (some _), v => .ok v.1
  | .bytes none, v => .ok v
  | .list s, vs => do sszListVariable (← mapM (encode s) vs)
  | .container fs, vs => do sszContainer (← encodeFields fs vs)

def encodeFields : (fs : List Schema) → Values fs → Except String (List SszField)
  | [], _ => .ok []
  | s :: fs, (v, vs) => do
    let data ← encode s v
    let rest ← encodeFields fs vs
    return ⟨data, s.isVariable⟩ :: rest

end

mutual

def encodedSize : (s : Schema) → Value s → Nat
  | .bytes (some n), _ => n
  | .bytes none, v => length v
  | .list s, vs => foldr (fun v n => 4 + encodedSize s v + n) 0 vs
  | .container fs, vs => encodedSizes fs vs

def encodedSizes : (fs : List Schema) → Values fs → Nat
  | [], _ => 0
  | s :: fs, (v, vs) => (if s.isVariable then 4 else 0) + encodedSize s v + encodedSizes fs vs

end

theorem size_cons (f : SszField) (fields : List SszField) :
    size (f :: fields) = (if f.isVariable then 4 else 0) + f.data.length + size fields := by
  simp only [size, headLen, heap, SszField.headLen]
  split
  · rw [length_append]
    omega
  · omega

section

variable {α β : Type} {m : α → Nat} {m' : β → Nat} {x : Except String α} {n k : Nat}

/-- A result of the announced size, or an error because it is too large. -/
def Sized (m : α → Nat) (x : Except String α) (n : Nat) : Prop :=
  (∀ a, x = .ok a → m a = n) ∧ ∀ e, x = .error e → maxSSZSerializedBytes < n

theorem sized_ok (m : α → Nat) (a : α) : Sized m (.ok a) (m a) := by simp [Sized]

theorem Sized.pair {y : Except String (List Byte)} {g : List Byte → α → β} {d : Nat} (hy : Sized length y k)
    (hx : Sized m x n) (hg : ∀ b a, m' (g b a) = d + b.length + m a) :
    Sized m' (do let b ← y; let a ← x; return g b a) (d + k + n) := by
  cases y with
  | error e =>
    have := hy.2 e rfl
    exact ⟨fun _ h => (by cases h), fun _ _ => by omega⟩
  | ok b =>
    cases x with
    | error e =>
      have := hx.2 e rfl
      exact ⟨fun _ h => (by cases h), fun _ _ => by omega⟩
    | ok a =>
      rw [← hy.1 b rfl, ← hx.1 a rfl, ← hg]
      exact sized_ok m' _

/-- Too large a part makes the whole too large. -/
theorem Sized.sections {parts : α → List SszField} (hx : Sized (fun a => size (parts a)) x n) :
    Sized length (x >>= fun a => sszSections ctx (parts a)) n ∧
      ((∃ e, (x >>= fun a => sszSections ctx (parts a)) = .error e) ↔ 2 ^ 32 ≤ n) := by
  cases x with
  | error e =>
    have := hx.2 e rfl
    exact ⟨⟨fun _ h => (by cases h), fun _ _ => this⟩, fun _ => Nat.succ_le_of_lt this, fun _ => ⟨e, rfl⟩⟩
  | ok a =>
    rw [← hx.1 a rfl]
    refine ⟨⟨fun bytes h => (decodes_of_ok h).length, fun e h => ?_⟩, sszSections_error_iff⟩
    exact Nat.lt_of_succ_le (sszSections_error_iff.mp ⟨e, h⟩)

theorem sized_elements {f : α → Except String (List Byte)} {k : α → Nat} (hf : ∀ v, Sized length (f v) (k v))
    (vs : List α) : Sized (fun es : List (List Byte) => size (es.map variableField)) (vs.mapM f)
      (vs.foldr (fun v n => 4 + k v + n) 0) := by
  induction vs with
  | nil => exact sized_ok (fun es : List (List Byte) => size (es.map variableField)) []
  | cons v vs ih =>
    rw [mapM_cons, foldr_cons]
    exact (hf v).pair ih fun b es => size_cons _ _

end

mutual

theorem sized_encode : (s : Schema) → (v : Value s) → Sized length (encode s v) (encodedSize s v)
  | .bytes (some n), v => ⟨fun _ h => Except.ok.inj h ▸ v.2, fun e h => (by cases h)⟩
  | .bytes none, v => sized_ok length _
  | .list s, vs => (sized_elements (sized_encode s) vs).sections.1
  | .container fs, vs => (sized_encodeFields fs vs).sections.1

theorem sized_encodeFields : (fs : List Schema) → (vs : Values fs) →
    Sized size (encodeFields fs vs) (encodedSizes fs vs)
  | [], _ => sized_ok size _
  | s :: fs, (v, vs) => (sized_encode s v).pair (sized_encodeFields fs vs) fun _ _ => size_cons _ _

end

mutual

theorem encodedSize_fixed : (s : Schema) → s.isVariable = false → ∀ v w : Value s, encodedSize s v = encodedSize s w
  | .bytes (some _), _, _, _ => rfl
  | .container fs, h, v, w => encodedSizes_fixed fs h v w

theorem encodedSizes_fixed : (fs : List Schema) → anyVariable fs = false →
    ∀ vs ws : Values fs, encodedSizes fs vs = encodedSizes fs ws
  | [], _, _, _ => rfl
  | s :: fs, h, (v, vs), (w, ws) => by
    obtain ⟨hs, hfs⟩ := Bool.or_eq_false_iff.mp h
    rw [encodedSizes, encodedSizes, encodedSize_fixed s hs v w, encodedSizes_fixed fs hfs vs ws]

end

theorem encodeFields_cons {s : Schema} {fs : List Schema} {v : Value s} {vs : Values fs} {ps : List SszField}
    (h : encodeFields (s :: fs) (v, vs) = .ok ps) :
    ∃ b qs, encode s v = .ok b ∧ encodeFields fs vs = .ok qs ∧ ps = ⟨b, s.isVariable⟩ :: qs := by
  obtain ⟨b, hb, h⟩ := bind_eq_ok.mp h
  obtain ⟨qs, hqs, h⟩ := bind_eq_ok.mp h
  exact ⟨b, qs, hb, hqs, (Except.ok.inj h).symm⟩

theorem encodeFields_shape {fs : List Schema} {vs ws : Values fs} {ps qs : List SszField}
    (h : encodeFields fs vs = .ok ps) (h' : encodeFields fs ws = .ok qs) :
    ps.map SszField.shape = qs.map SszField.shape := by
  induction fs generalizing ps qs with
  | nil => rw [← Except.ok.inj h, ← Except.ok.inj h']
  | cons s fs ih =>
    obtain ⟨b, ps, hb, hps, rfl⟩ := encodeFields_cons h
    obtain ⟨c, qs, hc, hqs, rfl⟩ := encodeFields_cons h'
    rw [map_cons, map_cons, ih hps hqs, SszField.shape, SszField.shape]
    split
    · rfl
    · rename_i hs
      rw [(sized_encode s _).1 b hb, (sized_encode s _).1 c hc, encodedSize_fixed s (Bool.eq_false_iff.mpr hs)]

mutual

theorem encode_inj : (s : Schema) → ∀ {v w : Value s} {bytes : List Byte}, encode s v = .ok bytes →
    encode s w = .ok bytes →
    v = w
  | .bytes (some _), _, _, _, h, h' => Subtype.ext (Except.ok.inj (h.trans h'.symm))
  | .bytes none, _, _, _, h, h' => Except.ok.inj (h.trans h'.symm)
  | .list s, vs, ws, bytes, h, h' => by
    obtain ⟨es, hes, h⟩ := bind_eq_ok.mp h
    obtain ⟨es', hes', h'⟩ := bind_eq_ok.mp h'
    rw [← decodeList_eq h', decodeList_eq h] at hes'
    have hunique : Relator.LeftUnique fun v b => encode s v = .ok b := fun _ _ _ => encode_inj s
    exact left_unique_forall₂' hunique (mapM_eq_ok_iff.mp hes) (mapM_eq_ok_iff.mp hes')
  | .container fs, vs, ws, bytes, h, h' => by
    obtain ⟨ps, hps, h⟩ := bind_eq_ok.mp h
    obtain ⟨qs, hqs, h'⟩ := bind_eq_ok.mp h'
    have hparts : qs = ps := by
      rw [← (decodes_of_ok h').decode, ← encodeFields_shape hps hqs, (decodes_of_ok h).decode]
    exact encodeFields_inj fs hps (hparts ▸ hqs)

theorem encodeFields_inj : (fs : List Schema) → ∀ {vs ws : Values fs} {ps : List SszField},
    encodeFields fs vs = .ok ps →
    encodeFields fs ws = .ok ps → vs = ws
  | [], _, _, _, _, _ => rfl
  | s :: fs, (v, vs), (w, ws), _, h, h' => by
    obtain ⟨b, ps, hb, hps, rfl⟩ := encodeFields_cons h
    obtain ⟨c, qs, hc, hqs, heq⟩ := encodeFields_cons h'
    cases heq
    rw [encode_inj s hb hc, encodeFields_inj fs hps hqs]

end

/-- Whether the outermost value goes through one of the two functions. -/
def Schema.isNested : Schema → Bool
  | .bytes _ => false
  | _ => true

theorem encode_error_iff (s : Schema) (v : Value s) :
    (∃ e, encode s v = .error e) ↔ s.isNested = true ∧ 2 ^ 32 ≤ encodedSize s v := by
  cases s with
  | bytes n => cases n <;> simp [encode, Schema.isNested]
  | list s => exact (sized_elements (sized_encode s) v).sections.2.trans (and_iff_right rfl).symm
  | container fs => exact (sized_encodeFields fs v).sections.2.trans (and_iff_right rfl).symm

/-- Containers, lists of variable parts and the values nested in them can be read back, and are refused exactly when
their size has no 32 bits. -/
theorem ssz_injective :
    (∀ fields, ((∃ e, sszContainer fields = .error e) ↔ 2 ^ 32 ≤ size fields) ∧
      ∀ bytes, sszContainer fields = .ok bytes → Decodes fields bytes) ∧
    (∀ elems, ((∃ e, sszListVariable elems = .error e) ↔ 2 ^ 32 ≤ size (elems.map variableField)) ∧
      ∀ bytes, sszListVariable elems = .ok bytes → Decodes (elems.map variableField) bytes ∧ decodeList bytes = elems) ∧
    ∀ (s : Schema) (v : Value s), ((∃ e, encode s v = .error e) ↔ s.isNested = true ∧ 2 ^ 32 ≤ encodedSize s v) ∧
      ∀ (w : Value s) (bytes : List Byte), encode s v = .ok bytes → encode s w = .ok bytes → v = w :=
  ⟨fun _ => ⟨sszSections_error_iff, fun _ => decodes_of_ok⟩,
    fun _ => ⟨sszSections_error_iff, fun _ h => ⟨decodes_of_ok h, decodeList_eq h⟩⟩,
    fun s v => ⟨encode_error_iff s v, fun _ _ => encode_inj s⟩⟩

end Lineth.Ssz
