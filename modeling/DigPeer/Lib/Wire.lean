import DigPeer.Lib.BigEndian
import Mathlib.Logic.Equiv.Defs
/-!
# Wire — formats that read back exactly what they write

A `Wire ε α` writes values of `α` as bytes and reads one off the front of a buffer.  Its law is both halves at once: a
value is read, with a rest, exactly where its encoding stands before that rest.  So a value has one encoding and no
encoding is a prefix of another (`unique`).  Formats are put together by `seq`, `map`, `choose`, `ofLength` and
`option`, each of which carries its own law.
-/

open BigEndian

structure Wire (ε α : Type) where
  encode       : α → Except ε (List UInt8)
  decode       : List UInt8 → Except ε (α × List UInt8)
  decode_eq_ok : ∀ b a rest, decode b = .ok (a, rest) ↔ ∃ e, encode a = .ok e ∧ b = e ++ rest

namespace Wire

theorem bind_eq_ok_iff {ε α β : Type} {x : Except ε α} {f : α → Except ε β} {b : β} :
    (x >>= f) = .ok b ↔ ∃ a, x = .ok a ∧ f a = .ok b := by
  cases x with
  | ok a    => simp [bind, Except.bind]
  | error e => simp [bind, Except.bind]

variable {ε α β κ : Type} {w : Wire ε α} {v : Wire ε β} {a a' : α} {b e e' r r' : List UInt8} {tooLong : ε}

theorem decode_append (h : w.encode a = .ok e) (r : List UInt8) : w.decode (e ++ r) = .ok (a, r) :=
  (w.decode_eq_ok _ _ _).2 ⟨e, h, rfl⟩

/-- **No encoding is a prefix of another**, and each value has one. -/
theorem unique (h : w.encode a = .ok e) (h' : w.encode a' = .ok e') (he : e ++ r = e' ++ r') :
    a = a' ∧ e = e' ∧ r = r' := by
  have hd := decode_append h r
  rw [he, decode_append h' r'] at hd
  simp only [Except.ok.injEq, Prod.mk.injEq] at hd
  obtain ⟨rfl, rfl⟩ := hd
  exact ⟨rfl, List.append_cancel_right he, rfl⟩

/-! ## A whole buffer -/

/-- Reads a value, and refuses a buffer that has more. -/
def fromBytes (w : Wire ε α) (tooLong : ε) (b : List UInt8) : Except ε α := do
  let (a, rest) ← w.decode b
  if rest.isEmpty then return a else throw tooLong

/-- **A buffer is read as a value exactly when it is the value's encoding.** -/
theorem fromBytes_eq_ok : w.fromBytes tooLong b = .ok a ↔ w.encode a = .ok b := by
  unfold fromBytes
  rw [bind_eq_ok_iff]
  constructor
  · rintro ⟨⟨a', rest⟩, hd, hrest⟩
    cases rest with
    | cons => cases hrest
    | nil =>
      cases hrest
      obtain ⟨e, he, rfl⟩ := (w.decode_eq_ok _ _ _).1 hd
      rwa [List.append_nil]
  · intro h
    have hd := decode_append h []
    rw [List.append_nil] at hd
    exact ⟨_, hd, rfl⟩

theorem fromBytes_eq_error : (∃ x, w.fromBytes tooLong b = .error x) ↔ ∀ a, w.encode a ≠ .ok b := by
  cases h : w.fromBytes tooLong b with
  | ok a    => simpa using ⟨a, fromBytes_eq_ok.1 h⟩
  | error x =>
    refine iff_of_true ⟨x, rfl⟩ fun a ha => ?_
    rw [fromBytes_eq_ok.2 ha] at h
    cases h

/-- **A longer buffer is refused.** -/
theorem fromBytes_append (h : w.encode a = .ok e) (hr : r ≠ []) : ∃ x, w.fromBytes tooLong (e ++ r) = .error x := by
  refine fromBytes_eq_error.2 fun a' ha' => ?_
  exact hr (unique h ha' (show e ++ r = (e ++ r) ++ [] by simp)).2.2

/-- **A buffer cut short is refused.** -/
theorem fromBytes_take {k : ℕ} (h : w.encode a = .ok e) (hk : k < e.length) :
    ∃ x, w.fromBytes tooLong (e.take k) = .error x := by
  refine fromBytes_eq_error.2 fun a' ha' => ?_
  have hcut := (unique h ha' (show e ++ [] = e.take k ++ e.drop k by simp)).2.1
  have := congrArg List.length hcut
  rw [List.length_take] at this
  omega

/-! ## Putting formats together -/

def seq (w : Wire ε α) (v : Wire ε β) : Wire ε (α × β) where
  encode x := do return (← w.encode x.1) ++ (← v.encode x.2)
  decode bytes := do
    let (a, rest) ← w.decode bytes
    let (b, rest) ← v.decode rest
    return ((a, b), rest)
  decode_eq_ok bytes x rest := by
    simp only [bind_eq_ok_iff, pure, Except.pure, Except.ok.injEq, Prod.mk.injEq]
    constructor
    · rintro ⟨⟨a, rest₁⟩, ha, ⟨b, rest₂⟩, hb, rfl, rfl⟩
      obtain ⟨e₁, he₁, rfl⟩ := (w.decode_eq_ok _ _ _).1 ha
      obtain ⟨e₂, he₂, rfl⟩ := (v.decode_eq_ok _ _ _).1 hb
      exact ⟨e₁ ++ e₂, ⟨e₁, he₁, e₂, he₂, rfl⟩, by simp⟩
    · rintro ⟨_, ⟨e₁, he₁, e₂, he₂, rfl⟩, rfl⟩
      rw [List.append_assoc]
      exact ⟨_, decode_append he₁ _, _, decode_append he₂ _, rfl, rfl⟩

theorem encode_seq {x : α × β} : (w.seq v).encode x = .ok e ↔
    ∃ e₁ e₂, w.encode x.1 = .ok e₁ ∧ v.encode x.2 = .ok e₂ ∧ e = e₁ ++ e₂ := by
  simp only [seq, bind_eq_ok_iff, pure, Except.pure, Except.ok.injEq]
  constructor
  · rintro ⟨e₁, h₁, e₂, h₂, rfl⟩
    exact ⟨e₁, e₂, h₁, h₂, rfl⟩
  · rintro ⟨e₁, e₂, h₁, h₂, rfl⟩
    exact ⟨e₁, h₁, e₂, h₂, rfl⟩

/-- Values of `α` by a key of theirs, where not every key is a value's. -/
def choose (w : Wire ε κ) (key : α → κ) (read : κ → Option α) (unknown : ε)
    (hread : ∀ k a, read k = some a ↔ key a = k) : Wire ε α where
  encode a := w.encode (key a)
  decode bytes := do
    let (k, rest) ← w.decode bytes
    match read k with
    | some a => return (a, rest)
    | none   => throw unknown
  decode_eq_ok bytes a rest := by
    rw [bind_eq_ok_iff]
    constructor
    · rintro ⟨⟨k, rest'⟩, hk, hr⟩
      dsimp only at hr
      cases hread' : read k with
      | none => rw [hread'] at hr; cases hr
      | some a' =>
        rw [hread'] at hr
        cases hr
        rw [(hread _ _).1 hread']
        exact (w.decode_eq_ok _ _ _).1 hk
    · rintro ⟨e, he, rfl⟩
      refine ⟨_, decode_append he rest, ?_⟩
      dsimp only
      rw [(hread _ a).2 rfl]
      rfl

def map (w : Wire ε α) (f : α ≃ β) : Wire ε β where
  encode b := w.encode (f.symm b)
  decode bytes := do
    let (a, rest) ← w.decode bytes
    return (f a, rest)
  decode_eq_ok bytes b rest := by
    rw [bind_eq_ok_iff]
    constructor
    · rintro ⟨⟨a, rest'⟩, ha, hr⟩
      cases hr
      rw [f.symm_apply_apply]
      exact (w.decode_eq_ok _ _ _).1 ha
    · rintro ⟨e, he, rfl⟩
      refine ⟨_, decode_append he rest, ?_⟩
      dsimp only
      rw [f.apply_symm_apply]
      rfl

/-! ## Numbers, lengths and options -/

/-- A number in `width` bytes, most significant first. -/
def number (width : ℕ) (tooLarge short : ε) : Wire ε ℕ where
  encode n := if n < 256 ^ width then .ok (toBe width n) else .error tooLarge
  decode bytes := if width ≤ bytes.length then .ok (ofBe (bytes.take width), bytes.drop width) else .error short
  decode_eq_ok bytes n rest := by
    constructor
    · intro h
      split at h
      · rename_i hlen
        cases h
        have hwidth : (bytes.take width).length = width := by rw [List.length_take]; omega
        have hlt := ofBe_lt (bytes.take width)
        have hback := toBe_ofBe (bytes.take width)
        rw [hwidth] at hlt hback
        refine ⟨_, if_pos hlt, ?_⟩
        rw [hback, List.take_append_drop]
      · cases h
    · rintro ⟨e, he, rfl⟩
      split at he
      · rename_i hlt
        cases he
        rw [if_pos (by simp), List.take_left' (length_toBe _ _), List.drop_left' (length_toBe _ _), ofBe_toBe_of_lt hlt]
      · cases he

/-- The values of a type that is as wide as `width` bytes. -/
def word (width : ℕ) (tooLarge short : ε) (toNat : α → ℕ) (ofNat : ℕ → α) (hlt : ∀ a, toNat a < 256 ^ width)
    (hto : ∀ n < 256 ^ width, toNat (ofNat n) = n) (hof : ∀ a, ofNat (toNat a) = a) : Wire ε α :=
  (number width tooLarge short).choose toNat (fun n => if n < 256 ^ width then some (ofNat n) else none) short fun n a => by
    constructor
    · intro h
      split at h
      · rename_i hn
        cases h
        exact hto n hn
      · cases h
    · rintro rfl
      rw [if_pos (hlt a), hof]

/-- That many bytes, after their number. -/
def ofLength (w : Wire ε ℕ) (short : ε) : Wire ε (List UInt8) where
  encode data := do return (← w.encode data.length) ++ data
  decode bytes := do
    let (n, rest) ← w.decode bytes
    if n ≤ rest.length then return (rest.take n, rest.drop n) else throw short
  decode_eq_ok bytes data rest := by
    simp only [bind_eq_ok_iff, pure, Except.pure, Except.ok.injEq]
    constructor
    · rintro ⟨⟨n, rest'⟩, hn, hr⟩
      dsimp only at hr
      split at hr
      · rename_i hlen
        cases hr
        obtain ⟨e, he, rfl⟩ := (w.decode_eq_ok _ _ _).1 hn
        refine ⟨_, ⟨e, ?_, rfl⟩, ?_⟩
        · rw [List.length_take, Nat.min_eq_left hlen, he]
        · rw [List.append_assoc, List.take_append_drop]
      · cases hr
    · rintro ⟨_, ⟨e, he, rfl⟩, rfl⟩
      refine ⟨(data.length, data ++ rest), ?_, ?_⟩
      · rw [List.append_assoc, decode_append he]
      · dsimp only
        rw [if_pos (by simp), List.take_left, List.drop_left]

def option (w : Wire ε α) (short invalid : ε) : Wire ε (Option α) where
  encode
    | none   => .ok [0]
    | some a => do return 1 :: (← w.encode a)
  decode
    | []          => .error short
    | tag :: rest =>
      if tag = 0 then .ok (none, rest)
      else if tag = 1 then do
        let (a, rest) ← w.decode rest
        return (some a, rest)
      else .error invalid
  decode_eq_ok bytes x rest := by
    cases bytes with
    | nil => cases x <;> simp [bind_eq_ok_iff, pure, Except.pure]
    | cons tag bytes =>
      by_cases h0 : tag = 0
      · subst h0
        cases x with
        | none   => simp
        | some a => simp [bind_eq_ok_iff, pure, Except.pure]
      by_cases h1 : tag = 1
      · subst h1
        cases x with
        | none   => simp [bind_eq_ok_iff, pure, Except.pure]
        | some a => simp [bind_eq_ok_iff, pure, Except.pure, w.decode_eq_ok]
      · cases x with
        | none   => simp [h0, h1]
        | some a => simp [h0, h1, bind_eq_ok_iff, pure, Except.pure]

/-! ## Nothing, and many -/

def unit : Wire ε Unit where
  encode _     := .ok []
  decode bytes := .ok ((), bytes)
  decode_eq_ok bytes _ rest := by simp

def encodeAll (w : Wire ε α) : List α → Except ε (List UInt8)
  | []      => .ok []
  | a :: as => do return (← w.encode a) ++ (← w.encodeAll as)

def decodeTimes (w : Wire ε α) : ℕ → List UInt8 → Except ε (List α × List UInt8)
  | 0, bytes     => .ok ([], bytes)
  | n + 1, bytes => do
    let (a, rest) ← w.decode bytes
    let (as, rest) ← w.decodeTimes n rest
    return (a :: as, rest)

theorem encodeAll_cons {as : List α} : w.encodeAll (a :: as) = .ok e ↔
    ∃ e₁ e₂, w.encode a = .ok e₁ ∧ w.encodeAll as = .ok e₂ ∧ e = e₁ ++ e₂ := by
  simp only [encodeAll, bind_eq_ok_iff, pure, Except.pure, Except.ok.injEq]
  constructor
  · rintro ⟨e₁, h₁, e₂, h₂, rfl⟩
    exact ⟨e₁, e₂, h₁, h₂, rfl⟩
  · rintro ⟨e₁, e₂, h₁, h₂, rfl⟩
    exact ⟨e₁, h₁, e₂, h₂, rfl⟩

/-- **So many values are read exactly where their encodings stand**, one after the other. -/
theorem decodeTimes_eq_ok : ∀ {n : ℕ} {b : List UInt8} {as : List α} {rest : List UInt8},
    w.decodeTimes n b = .ok (as, rest) ↔ as.length = n ∧ ∃ e, w.encodeAll as = .ok e ∧ b = e ++ rest
  | 0, b, [], rest      => by simp [decodeTimes, encodeAll]
  | 0, b, _ :: _, rest  => by simp [decodeTimes]
  | n + 1, b, [], rest  => by
    simp only [decodeTimes, bind_eq_ok_iff, pure, Except.pure, Except.ok.injEq, Prod.mk.injEq]
    exact iff_of_false (by simp) (by simp)
  | n + 1, b, a :: as, rest => by
    simp only [decodeTimes, bind_eq_ok_iff, pure, Except.pure, Except.ok.injEq, Prod.mk.injEq, List.length_cons,
      Nat.add_right_cancel_iff, encodeAll_cons]
    constructor
    · rintro ⟨⟨a', rest₁⟩, ha, ⟨as', rest₂⟩, has, ⟨rfl, rfl⟩, rfl⟩
      obtain ⟨e₁, he₁, rfl⟩ := (w.decode_eq_ok _ _ _).1 ha
      obtain ⟨hlength, e₂, he₂, rfl⟩ := decodeTimes_eq_ok.1 has
      exact ⟨hlength, _, ⟨e₁, e₂, he₁, he₂, rfl⟩, (List.append_assoc _ _ _).symm⟩
    · rintro ⟨hlength, _, ⟨e₁, e₂, he₁, he₂, rfl⟩, rfl⟩
      rw [List.append_assoc]
      exact ⟨_, decode_append he₁ _, _, decodeTimes_eq_ok.2 ⟨hlength, e₂, he₂, rfl⟩, rfl, rfl⟩

/-- How many there are, and then each of them. -/
def list (count : Wire ε ℕ) (w : Wire ε α) : Wire ε (List α) where
  encode as := do return (← count.encode as.length) ++ (← w.encodeAll as)
  decode bytes := do
    let (n, rest) ← count.decode bytes
    w.decodeTimes n rest
  decode_eq_ok bytes as rest := by
    simp only [bind_eq_ok_iff, pure, Except.pure, Except.ok.injEq, decodeTimes_eq_ok]
    constructor
    · rintro ⟨⟨n, rest₁⟩, hn, hlength, e₂, he₂, hrest⟩
      obtain ⟨e₁, he₁, rfl⟩ := (count.decode_eq_ok _ _ _).1 hn
      dsimp only at hlength hrest
      subst hlength hrest
      exact ⟨_, ⟨e₁, he₁, e₂, he₂, rfl⟩, (List.append_assoc _ _ _).symm⟩
    · rintro ⟨_, ⟨e₁, he₁, e₂, he₂, rfl⟩, rfl⟩
      exact ⟨(as.length, e₂ ++ rest), by rw [List.append_assoc]; exact decode_append he₁ _, rfl, e₂, he₂, rfl⟩

/-- Two lists whose encodings begin one buffer agree as far as the shorter one goes. -/
theorem prefix_of_encodeAll : ∀ {as bs : List α} {e e' r r' : List UInt8}, w.encodeAll as = .ok e →
    w.encodeAll bs = .ok e' → e ++ r = e' ++ r' → as.length ≤ bs.length → as <+: bs
  | [], bs, _, _, _, _, _, _, _, _ => List.nil_prefix
  | a :: as, [], _, _, _, _, _, _, _, hle => by simp at hle
  | a :: as, b :: bs, e, e', r, r', has, hbs, he, hle => by
    obtain ⟨e₁, e₂, h₁, h₂, rfl⟩ := encodeAll_cons.1 has
    obtain ⟨e₁', e₂', h₁', h₂', rfl⟩ := encodeAll_cons.1 hbs
    rw [List.append_assoc, List.append_assoc] at he
    obtain ⟨rfl, -, hrest⟩ := unique h₁ h₁' he
    exact List.cons_prefix_cons.2 ⟨rfl, prefix_of_encodeAll h₂ h₂' hrest (by simpa using hle)⟩

theorem encodeAll_append {as bs : List α} : w.encodeAll (as ++ bs) = .ok e ↔
    ∃ e₁ e₂, w.encodeAll as = .ok e₁ ∧ w.encodeAll bs = .ok e₂ ∧ e = e₁ ++ e₂ := by
  induction as generalizing e with
  | nil => simp [encodeAll]
  | cons a as ih =>
    simp only [List.cons_append, encodeAll_cons, ih]
    constructor
    · rintro ⟨e₁, _, h₁, ⟨e₂, e₃, h₂, h₃, rfl⟩, rfl⟩
      exact ⟨_, e₃, ⟨e₁, e₂, h₁, h₂, rfl⟩, h₃, (List.append_assoc _ _ _).symm⟩
    · rintro ⟨_, e₃, ⟨e₁, e₂, h₁, h₂, rfl⟩, h₃, rfl⟩
      exact ⟨e₁, _, h₁, ⟨e₂, e₃, h₂, h₃, rfl⟩, List.append_assoc _ _ _⟩

/-- **Encodings one after the other are those of one list**, where none of them is empty. -/
theorem encodeAll_inj {as bs : List α} (hw : ∀ a, w.encode a ≠ .ok []) (has : w.encodeAll as = .ok e)
    (hbs : w.encodeAll bs = .ok e) : as = bs := by
  have hle : ∀ {as bs : List α}, w.encodeAll as = .ok e → w.encodeAll bs = .ok e → as.length ≤ bs.length → as = bs := by
    intro as bs has hbs hle
    have hsame : e ++ [] = e ++ [] := rfl
    obtain ⟨cs, rfl⟩ := prefix_of_encodeAll has hbs hsame hle
    obtain ⟨e₁, e₂, h₁, h₂, rfl⟩ := encodeAll_append.1 hbs
    rw [h₁] at has
    have hnil : e₂ = [] := by simpa using has
    subst hnil
    cases cs with
    | nil => rw [List.append_nil]
    | cons c cs =>
      obtain ⟨e₃, e₄, h₃, -, hnil⟩ := encodeAll_cons.1 h₂
      rw [(List.append_eq_nil_iff.1 hnil.symm).1] at h₃
      exact absurd h₃ (hw c)
  rcases Nat.le_total as.length bs.length with h | h
  · exact hle has hbs h
  · exact (hle hbs has h).symm

end Wire
