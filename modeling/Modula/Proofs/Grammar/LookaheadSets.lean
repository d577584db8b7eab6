import Modula.Grammar.Follow
import Modula.Proofs.Grammar.Lookahead
import Modula.Proofs.Grammar.Sentential

/-!
# The lookahead sets are those of the grammar

The FIRST set of a production should hold the tokens that its texts start with, and its FOLLOW set the tokens that come
right after it in the sentential forms of complete units. That the tables hold nothing else is an invariant of
derivations, kept by each row because of its outline. That they hold all of it is shown by calculation: the FIRST sets
come out if productions are replaced at the start of a form a dozen times, and the FOLLOW sets come out of a table that
is filled from the outlines of the rows. Both calculations only ever find tokens that some derivation has.
-/

set_option autoImplicit false

namespace Modula

/-! ## Sentential forms of units -/

/-- The productions that derive complete units. -/
def Grammar.units : List Production := [.definitionModule, .implementationModule, .programModule]

/-- A form that comes from a complete unit, with the end of the text after it. -/
def Grammar.IsSentential (ctx : Context) (u : Form) : Prop :=
  ∃ start ∈ units, Yields (strict ctx) [.production start, .token .eof] u

/-- Some text that the form derives starts with the token. -/
def CanStart (ctx : Context) (u : Form) (t : Token) : Prop :=
  ∃ ts : List Token, Yields (Grammar.strict ctx) u (ts.map .token) ∧ ts.head? = some t

namespace Production

/-- Some complete unit has the production as a part. -/
def IsReachable (ctx : Context) (p : Production) : Prop := ∃ u, Grammar.IsSentential ctx u ∧ .production p ∈ u

/-- The token comes right after the production in a form of some complete unit. -/
def CanPrecede (ctx : Context) (p : Production) (t : Token) : Prop :=
  ∃ u, Grammar.IsSentential ctx u ∧ [.production p, .token t] <:+: u

/-- The outline of the row of a production. -/
def outline (ctx : Context) (p : Production) : Outline Sign := rowOutline (Grammar.strict ctx p)

/-- The place of a production in declaration order, counted from zero. -/
def index (p : Production) : Nat := all.idxOf p

/-- Whether the production is a part of units: each context has records of one kind. -/
def isUsed (ctx : Context) : Production → Bool
  | .extensibleRecordType | .fieldListSequence | .varSizeRecordType => !ctx.variantRecords
  | p => !p.isVariant || ctx.variantRecords

/-- Productions have places of their own. -/
theorem index_inj {p q : Production} : p.index = q.index ↔ p = q := List.idxOf_inj p.mem_all

/-- The outline of a production describes what its row stands for. -/
theorem outlines (ctx : Context) (p : Production) :
    Outlines (p.outline ctx) (rowLanguage (Grammar.strict ctx p)) := outlines_row _

end Production

namespace Sign

/-- The tokens that a text of the sign can start with, if these are the ones of productions. -/
def startsBy (first : Production → TokenSet) : Sign → TokenSet
  | .token t => {t}
  | .production p => first p

/-- The tokens that a text of the sign can start with by the tables. -/
abbrev starts (ctx : Context) : Sign → TokenSet := startsBy (Production.first ctx)

/-- Whether the sign is a part of units. -/
def isUsed (ctx : Context) : Sign → Bool
  | .token _ => true
  | .production p => p.isUsed ctx

/-- Whether all tokens of the set may come after the sign. After a token, that is left to others. -/
def admits (ctx : Context) : Sign → TokenSet → Bool
  | .token _, _ => true
  | .production p, s => s.isSubset (p.follow ctx)

end Sign

namespace TokenSet

variable {s u : TokenSet} {ss : List TokenSet} {t : Token}

/-- The tokens that are members of one of the sets. -/
def unionOf (ss : List TokenSet) : TokenSet := ss.foldr union empty

/-- A set is part of another one by its members. -/
theorem isSubset_iff : s.isSubset u = true ↔ ∀ t, s.contains t = true → u.contains t = true := by
  constructor
  · intro h t
    exact contains_of_isSubset h
  · intro h
    have hunion : s.union u = u := by
      refine ext fun t => ?_
      have ht := h t
      rw [contains_union]
      cases hs : s.contains t <;> simp_all
    simp [isSubset, hunion]

/-- A token is in the union if it is in one of the sets. -/
theorem contains_unionOf : (unionOf ss).contains t = true ↔ ∃ s ∈ ss, s.contains t = true := by
  induction ss with
  | nil => simp [unionOf]
  | cons s ss ih =>
    have hcons : unionOf (s :: ss) = s.union (unionOf ss) := rfl
    simp [hcons, ih]

/-- The set with the lowest bits of a number, one for each token. -/
def ofLowBits (n : ℕ) : TokenSet :=
  ⟨BitVec.ofNat 128 (n % 2 ^ Token.count), fun i hi => by
    rw [BitVec.getLsbD_ofNat, Nat.testBit_mod_two_pow]
    simp [Nat.not_lt.mpr hi]⟩

/-- A token is a member by its bit. -/
theorem contains_ofLowBits (n : ℕ) : (ofLowBits n).contains t = n.testBit t.index := by
  have hwidth : t.index < 128 := t.index_lt_count.trans_le (by decide)
  rw [ofLowBits, contains, BitVec.getLsbD_ofNat, Nat.testBit_mod_two_pow]
  simp [t.index_lt_count, hwidth]

/-- The word of a set is a number of so many bits as there are tokens. -/
theorem toNat_bits_lt (s : TokenSet) : s.bits.toNat < 2 ^ Token.count :=
  Nat.lt_pow_two_of_testBit _ s.clear

end TokenSet

variable {ctx : Context} {p q : Production} {x y : Sign} {t : Token} {u v w : Form}

/-- What may be followed by some tokens may be followed by fewer. -/
theorem Sign.admits_mono {s s' : TokenSet} (h : x.admits ctx s = true)
    (hsub : ∀ t, s'.contains t = true → s.contains t = true) : x.admits ctx s' = true := by
  cases x with
  | token t => rfl
  | production p => exact TokenSet.isSubset_iff.mpr fun t ht => TokenSet.isSubset_iff.mp h t (hsub t ht)

/-! ## What the rows say of the tables -/

/-- No production stands for nothing. -/
theorem skips_outline (ctx : Context) (p : Production) : (p.outline ctx).skips = false := by
  have hall : ∀ ctx ∈ Context.all, ∀ p ∈ Production.all, (p.outline ctx).skips = false := by decide
  exact hall ctx ctx.mem_all p p.mem_all

/-- The FIRST set of a production has what its first signs can start with. -/
theorem starts_heads (hx : x ∈ (p.outline ctx).heads) (ht : (x.starts ctx).contains t = true) :
    (p.first ctx).contains t = true := by
  have hall : ∀ ctx ∈ Context.all, ∀ p ∈ Production.all,
      ((p.outline ctx).heads.all fun x => (x.starts ctx).isSubset (p.first ctx)) = true := by
    decide
  exact TokenSet.contains_of_isSubset (List.all_eq_true.mp (hall ctx ctx.mem_all p p.mem_all) x hx) ht

/-- A production in use has parts in use only. -/
theorem isUsed_letters (hp : p.isUsed ctx = true) (hx : x ∈ (p.outline ctx).letters) : x.isUsed ctx = true := by
  have hall : ∀ ctx ∈ Context.all, ∀ p ∈ Production.all, p.isUsed ctx = true →
      (p.outline ctx).letters.all (Sign.isUsed ctx) = true := by
    decide
  exact List.all_eq_true.mp (hall ctx ctx.mem_all p p.mem_all hp) x hx

/-- The FOLLOW set of a sign has what its neighbours in a row can start with. -/
theorem admits_pairs (hp : p.isUsed ctx = true) (hxy : (x, y) ∈ (p.outline ctx).pairs) :
    x.admits ctx (y.starts ctx) = true := by
  have hall : ∀ ctx ∈ Context.all, ∀ p ∈ Production.all, p.isUsed ctx = true →
      ((p.outline ctx).pairs.all fun r => r.1.admits ctx (r.2.starts ctx)) = true := by
    decide
  exact List.all_eq_true.mp (hall ctx ctx.mem_all p p.mem_all hp) (x, y) hxy

/-- The FOLLOW set of a last sign has what may follow the production. -/
theorem admits_lasts (hp : p.isUsed ctx = true) (hx : x ∈ (p.outline ctx).lasts) :
    x.admits ctx (p.follow ctx) = true := by
  have hall : ∀ ctx ∈ Context.all, ∀ p ∈ Production.all, p.isUsed ctx = true →
      ((p.outline ctx).lasts.all fun x => x.admits ctx (p.follow ctx)) = true := by
    decide
  exact List.all_eq_true.mp (hall ctx ctx.mem_all p p.mem_all hp) x hx

/-- The end of the text may follow a complete unit. -/
theorem admits_eof : ∀ start ∈ Grammar.units, (Sign.production start).admits ctx {.eof} = true := by
  have hall : ∀ ctx ∈ Context.all, ∀ start ∈ Grammar.units, (Sign.production start).admits ctx {.eof} = true := by
    decide
  exact hall ctx ctx.mem_all

/-- No row stands for nothing. -/
theorem ne_nil_of_row (h : w ∈ rowLanguage (Grammar.strict ctx p)) : w ≠ [] := by
  rintro rfl
  have hskips := (p.outlines ctx).skips.mpr h
  rw [skips_outline] at hskips
  exact Bool.false_ne_true hskips

/-! ## Derivations keep to the tables -/

/-- The form starts with tokens of the set only. -/
def StartsIn (ctx : Context) (s : TokenSet) (u : Form) : Prop :=
  ∀ x, u.head? = some x → ∀ t, (x.starts ctx).contains t = true → s.contains t = true

/-- All parts of the form are in use, and its neighbours keep to the FOLLOW sets. -/
structure Coherent (ctx : Context) (u : Form) : Prop where
  used : ∀ x ∈ u, x.isUsed ctx = true
  chain : u.IsChain fun x y => x.admits ctx (y.starts ctx) = true

/-- What a row stands for starts as the production does. -/
theorem startsIn_row (h : w ∈ rowLanguage (Grammar.strict ctx p)) : StartsIn ctx (p.first ctx) w := by
  intro x hx t ht
  exact starts_heads ((p.outlines ctx).heads.mpr ⟨w, h, hx⟩) ht

/-- What the row of a production in use stands for is coherent. -/
theorem coherent_row (hp : p.isUsed ctx = true) (h : w ∈ rowLanguage (Grammar.strict ctx p)) : Coherent ctx w where
  used := fun x hx => isUsed_letters hp ((p.outlines ctx).letters.mpr ⟨w, h, hx⟩)
  chain := by
    refine List.isChain_iff_forall_rel_of_append_cons_cons.mpr ?_
    rintro x y before after rfl
    exact admits_pairs hp ((p.outlines ctx).pairs.mpr ⟨_, h, before, after, by simp⟩)

/-- Replacing a production does not change what a form starts with. -/
theorem StartsIn.rewrites {s : TokenSet} (h : Rewrites (Grammar.strict ctx) u v) (hu : StartsIn ctx s u) :
    StartsIn ctx s v := by
  obtain @⟨w, a, p, b, hw⟩ := h
  intro x hx t ht
  cases a with
  | nil =>
    obtain ⟨y, w, rfl⟩ := List.exists_cons_of_ne_nil (ne_nil_of_row hw)
    have hfirst := startsIn_row hw x (by simpa using hx) t ht
    exact hu (.production p) (by simp) t hfirst
  | cons y a => exact hu x (by simpa using hx) t ht

/-- Replacing a production leaves a form coherent, within the row and at both of its ends. -/
theorem Coherent.rewrites (h : Rewrites (Grammar.strict ctx) u v) (hu : Coherent ctx u) : Coherent ctx v := by
  obtain @⟨w, a, p, b, hw⟩ := h
  have hp : p.isUsed ctx = true := hu.used (.production p) (by simp)
  have hrow := coherent_row hp hw
  obtain ⟨ha, hpb, hap⟩ := List.isChain_append.mp hu.chain
  obtain ⟨hb, hchain⟩ := List.isChain_cons.mp hpb
  constructor
  · intro x hx
    rw [List.append_assoc, List.mem_append, List.mem_append] at hx
    obtain hx | hx | hx := hx
    · exact hu.used x (by simp [hx])
    · exact hrow.used x hx
    · exact hu.used x (by simp [hx])
  · -- what stood beside the production now stands beside the first or the last sign of its row
    have hwb : (w ++ b).IsChain fun x y => x.admits ctx (y.starts ctx) = true := by
      refine List.isChain_append.mpr ⟨hrow.chain, hchain, fun x hx y hy => ?_⟩
      have hlast := admits_lasts hp ((p.outlines ctx).lasts.mpr ⟨w, hw, hx⟩)
      exact Sign.admits_mono hlast (TokenSet.isSubset_iff.mp (hb y hy))
    rw [List.append_assoc]
    refine List.isChain_append.mpr ⟨ha, hwb, fun x hx y hy => ?_⟩
    rw [List.head?_append_of_ne_nil _ (ne_nil_of_row hw)] at hy
    exact Sign.admits_mono (hap x hx (.production p) (by simp)) (startsIn_row hw y hy)

/-- So every form of a complete unit is. -/
theorem Coherent.sentential (h : Grammar.IsSentential ctx u) : Coherent ctx u := by
  obtain ⟨start, hstart, h⟩ := h
  refine h.keeps (fun hstep => Coherent.rewrites hstep) ⟨?_, ?_⟩
  · have hused : ∀ ctx ∈ Context.all, ∀ start ∈ Grammar.units, start.isUsed ctx = true := by decide
    intro x hx
    obtain rfl | rfl := List.mem_pair.mp hx
    · exact hused ctx ctx.mem_all start hstart
    · rfl
  · exact List.isChain_pair.mpr (admits_eof start hstart)

/-- A token that a text of the production starts with is in its FIRST set. -/
theorem CanStart.contains_first (h : CanStart ctx [.production p] t) : (p.first ctx).contains t = true := by
  obtain ⟨ts, hts, hhead⟩ := h
  have hstart : StartsIn ctx (p.first ctx) [.production p] := by
    intro x hx t ht
    obtain rfl : Sign.production p = x := by simpa using hx
    exact ht
  have hkept : StartsIn ctx (p.first ctx) (ts.map .token) := hts.keeps (fun hstep => StartsIn.rewrites hstep) hstart
  exact hkept (.token t) (by simp [hhead]) t (by simp [Sign.startsBy])

/-- A token that comes after the production in some unit is in its FOLLOW set. -/
theorem Production.CanPrecede.contains_follow (h : p.CanPrecede ctx t) : (p.follow ctx).contains t = true := by
  obtain ⟨u, hu, hpair⟩ := h
  have hchain := List.IsChain.infix (Coherent.sentential hu).chain hpair
  have hadmits := List.isChain_pair.mp hchain
  exact TokenSet.isSubset_iff.mp hadmits t (by simp [Sign.startsBy])

/-- Parts of units are in use. -/
theorem Production.IsReachable.isUsed (h : p.IsReachable ctx) : p.isUsed ctx = true := by
  obtain ⟨u, hu, hp⟩ := h
  exact (Coherent.sentential hu).used _ hp

/-! ## Every form has a text -/

mutual

/-- Whether the expression stands for a form of tokens and good productions only. -/
def Ebnf.endsBy (good : Production → Bool) : Ebnf → Bool
  | .token _ | .opening | .closing | .many _ => true
  | .call p | .named p => good p
  | .alt a b => rowEndsBy good a || rowEndsBy good b

/-- Whether the row stands for a form of tokens and good productions only. -/
def rowEndsBy (good : Production → Bool) : List Ebnf → Bool
  | [] => true
  | e :: es => e.endsBy good && rowEndsBy good es

end

/-- Whether this many rounds of replacements can take the production to a text. -/
def Production.endsWithin (ctx : Context) : Nat → Production → Bool
  | 0, _ => false
  | n + 1, p => rowEndsBy (endsWithin ctx n) (Grammar.strict ctx p)

/-- All productions of the form are good. -/
def AllGood (good : Production → Bool) (u : Form) : Prop := ∀ p, .production p ∈ u → good p = true

mutual

/-- An expression that ends by good productions stands for a form of them. -/
theorem Ebnf.exists_allGood {good : Production → Bool} {e : Ebnf} (h : e.endsBy good = true) :
    ∃ w ∈ e.language, AllGood good w := by
  cases e with
  | token t =>
    rw [Ebnf.language]
    exact ⟨_, rfl, by simp [AllGood]⟩
  | opening =>
    rw [Ebnf.language]
    exact ⟨_, rfl, by simp [AllGood]⟩
  | closing =>
    rw [Ebnf.language]
    exact ⟨_, rfl, by simp [AllGood]⟩
  | call p =>
    rw [Ebnf.endsBy] at h
    rw [Ebnf.language]
    exact ⟨_, rfl, by simp [AllGood, h]⟩
  | named p =>
    rw [Ebnf.endsBy] at h
    rw [Ebnf.language]
    exact ⟨_, rfl, by simp [AllGood, h]⟩
  | alt a b =>
    rw [Ebnf.endsBy, Bool.or_eq_true] at h
    rw [Ebnf.language]
    obtain h | h := h
    · obtain ⟨w, hw, hgood⟩ := exists_allGood h
      exact ⟨w, .inl hw, hgood⟩
    · obtain ⟨w, hw, hgood⟩ := exists_allGood h
      exact ⟨w, .inr hw, hgood⟩
  | many a =>
    rw [Ebnf.language]
    exact ⟨[], Language.nil_mem_kstar _, by simp [AllGood]⟩

/-- So does a row. -/
theorem exists_allGood {good : Production → Bool} {es : List Ebnf} (h : rowEndsBy good es = true) :
    ∃ w ∈ rowLanguage es, AllGood good w := by
  cases es with
  | nil =>
    rw [rowLanguage]
    exact ⟨[], Language.nil_mem_one, by simp [AllGood]⟩
  | cons e es =>
    rw [rowEndsBy, Bool.and_eq_true] at h
    rw [rowLanguage]
    obtain ⟨u, hu, hugood⟩ := e.exists_allGood h.1
    obtain ⟨v, hv, hvgood⟩ := exists_allGood h.2
    refine ⟨u ++ v, Language.append_mem_mul hu hv, fun p hp => ?_⟩
    obtain hp | hp := List.mem_append.mp hp
    · exact hugood p hp
    · exact hvgood p hp

end

/-- The form derives a text. -/
def HasText (ctx : Context) (u : Form) : Prop :=
  ∃ ts : List Token, Yields (Grammar.strict ctx) u (ts.map .token)

/-- A form derives a text if all its productions do. -/
theorem hasText_of_signs (h : ∀ p, .production p ∈ u → HasText ctx [.production p]) : HasText ctx u := by
  induction u with
  | nil => exact ⟨[], .refl⟩
  | cons x u ih =>
    have hx : HasText ctx [x] := by
      cases x with
      | token t => exact ⟨[t], .refl⟩
      | production p => exact h p (by simp)
    obtain ⟨ts, hts⟩ := hx
    obtain ⟨ts', hts'⟩ := ih fun p hp => h p (List.mem_cons_of_mem _ hp)
    refine ⟨ts ++ ts', ?_⟩
    rw [List.map_append]
    exact hts.append hts'

/-- Every production derives a text. -/
theorem Production.hasText (ctx : Context) (p : Production) : HasText ctx [.production p] := by
  have hall : ∀ ctx ∈ Context.all, ∀ p ∈ Production.all, p.endsWithin ctx 14 = true := by decide
  have hends := hall ctx ctx.mem_all p p.mem_all
  generalize 14 = n at hends
  induction n generalizing p with
  | zero => cases hends
  | succ n ih =>
    obtain ⟨w, hw, hgood⟩ := exists_allGood hends
    obtain ⟨ts, hts⟩ := hasText_of_signs fun q hq => ih q (hgood q hq)
    exact ⟨ts, (yields_row hw).trans hts⟩

/-- So does every form. -/
theorem hasText (ctx : Context) (u : Form) : HasText ctx u := hasText_of_signs fun p _ => p.hasText ctx

/-! ## All tokens of the FIRST sets are found -/

/-- What comes after a form does not change what it can start with. -/
theorem CanStart.append (h : CanStart ctx u t) (v : Form) : CanStart ctx (u ++ v) t := by
  obtain ⟨ts, hts, hhead⟩ := h
  obtain ⟨ts', hts'⟩ := hasText ctx v
  refine ⟨ts ++ ts', ?_, by simp [hhead]⟩
  rw [List.map_append]
  exact hts.append hts'

/-- A sign can start with the tokens that are computed for it, if productions can. -/
theorem canStart_sign {first : Production → TokenSet}
    (hfirst : ∀ p t, (first p).contains t = true → CanStart ctx [.production p] t)
    (h : (x.startsBy first).contains t = true) : CanStart ctx [x] t := by
  cases x with
  | token t' =>
    obtain rfl : t = t' := by simpa [Sign.startsBy] using h
    exact ⟨[t], .refl, rfl⟩
  | production p => exact hfirst p t h

/-- The tokens that come to the start if productions are replaced there this many times. -/
def Production.firstWithin (ctx : Context) : Nat → Production → TokenSet
  | 0, _ => .empty
  | n + 1, p => .unionOf ((p.outline ctx).heads.map (Sign.startsBy (firstWithin ctx n)))

/-- Whatever the number of rounds, productions can start with the tokens computed. -/
theorem canStart_of_firstWithin {n : Nat} (h : (p.firstWithin ctx n).contains t = true) :
    CanStart ctx [.production p] t := by
  induction n generalizing p t with
  | zero => simp [Production.firstWithin] at h
  | succ n ih =>
    obtain ⟨s, hs, ht⟩ := TokenSet.contains_unionOf.mp h
    obtain ⟨x, hx, rfl⟩ := List.mem_map.mp hs
    obtain ⟨w, hw, hhead⟩ := (p.outlines ctx).heads.mp hx
    obtain ⟨w, rfl⟩ := List.head?_eq_some_iff.mp hhead
    have hsign : CanStart ctx [x] t := canStart_sign (fun _ _ h => ih h) ht
    obtain ⟨ts, hts, hhead⟩ := hsign.append w
    exact ⟨ts, (yields_row hw).trans hts, hhead⟩

/-- A token in the FIRST set of a production does start a text of it. -/
theorem canStart_of_contains (h : (p.first ctx).contains t = true) : CanStart ctx [.production p] t := by
  have hall : ∀ ctx ∈ Context.all, ∀ p ∈ Production.all, p.firstWithin ctx 12 = p.first ctx := by decide
  rw [← hall ctx ctx.mem_all p p.mem_all] at h
  exact canStart_of_firstWithin h

/-! ## All tokens of the FOLLOW sets are found -/

/-- Tokens found after productions, one bit for each production and token. -/
structure Findings where
  bits : Nat

namespace Findings

/-- The tokens found after the production. -/
def of (m : Findings) (p : Production) : TokenSet :=
  .ofLowBits (m.bits >>> (Token.count * p.index))

/-- The tokens of the set are found after the sign. -/
def add (m : Findings) (x : Sign) (s : TokenSet) : Findings :=
  match x with
  | .token _ => m
  | .production p => ⟨m.bits ||| s.bits.toNat <<< (Token.count * p.index)⟩

/-- What the row of a production tells, if the production itself has been found. -/
def addRow (ctx : Context) (m : Findings) (q : Production) : Findings :=
  if (m.of q).isEmpty then m
  else
    (q.outline ctx).lasts.foldl (fun m x => m.add x (m.of q))
      ((q.outline ctx).pairs.foldl (fun m r => m.add r.1 (r.2.starts ctx)) m)

/-- What is found if all rows are read this many times. -/
def after (ctx : Context) : Nat → Findings
  | 0 => Grammar.units.foldl (fun m p => m.add (.production p) {.eof}) ⟨0⟩
  | n + 1 => Production.all.foldl (addRow ctx) (after ctx n)

/-- Everything that was found is so. -/
def Sound (ctx : Context) (m : Findings) : Prop := ∀ p t, (m.of p).contains t = true → p.CanPrecede ctx t

variable {m : Findings} {s : TokenSet}

/-- A table keeps one bit for each production and token. -/
theorem contains_of : (m.of p).contains t = m.bits.testBit (Token.count * p.index + t.index) := by
  rw [of, TokenSet.contains_ofLowBits, Nat.testBit_shiftRight]

/-- What a table has after an addition, it had before or was added. -/
theorem contains_of_add (h : ((m.add x s).of p).contains t = true) :
    (m.of p).contains t = true ∨ x = .production p ∧ s.contains t = true := by
  cases x with
  | token t' => exact .inl h
  | production q =>
    rw [contains_of, add, Nat.testBit_or, Bool.or_eq_true, ← contains_of] at h
    refine h.imp id fun h => ?_
    rw [Nat.testBit_shiftLeft, Bool.and_eq_true, decide_eq_true_eq] at h
    obtain ⟨hle, hbit⟩ := h
    -- the bits of a set are as many as there are tokens, so the bit belongs to the same production
    have hlt : Token.count * p.index + t.index - Token.count * q.index < Token.count := by
      by_contra hge
      have hsmall : s.bits.toNat < 2 ^ (Token.count * p.index + t.index - Token.count * q.index) :=
        lt_of_lt_of_le s.toNat_bits_lt (Nat.pow_le_pow_right (by omega) (by omega))
      rw [Nat.testBit_lt_two_pow hsmall] at hbit
      exact Bool.false_ne_true hbit
    have ht := t.index_lt_count
    unfold Token.count at hle hlt ht
    have hindex : p.index = q.index := by omega
    obtain rfl := Production.index_inj.mp hindex
    refine ⟨rfl, ?_⟩
    rw [TokenSet.contains, BitVec.getLsbD]
    simpa using hbit

/-- Adding tokens that come after a production leaves a table sound. -/
theorem Sound.add (hm : m.Sound ctx) (hx : ∀ p, x = .production p → ∀ t, s.contains t = true → p.CanPrecede ctx t) :
    (m.add x s).Sound ctx := by
  intro p t ht
  obtain ht | ⟨hxp, ht⟩ := contains_of_add ht
  · exact hm p t ht
  · exact hx p hxp t ht

end Findings

/-- A part of a unit may be replaced by what it derives. -/
theorem Grammar.IsSentential.replace {a b : Form} (h : IsSentential ctx (a ++ u ++ b))
    (huv : Yields (strict ctx) u v) : IsSentential ctx (a ++ v ++ b) := by
  obtain ⟨start, hstart, h⟩ := h
  exact ⟨start, hstart, h.trans (huv.inside a b)⟩

/-- In the row of a reachable production, what comes right after a part gives it tokens. -/
theorem canPrecede_of_pair (hq : q.IsReachable ctx) (hpair : (.production p, y) ∈ (q.outline ctx).pairs)
    (ht : (y.starts ctx).contains t = true) : p.CanPrecede ctx t := by
  obtain ⟨u, hu, hmem⟩ := hq
  obtain ⟨a, b, rfl⟩ := List.append_of_mem hmem
  obtain ⟨w, hw, before, after, rfl⟩ := (q.outlines ctx).pairs.mp hpair
  obtain ⟨ts, hts, hhead⟩ := canStart_sign (fun _ _ h => canStart_of_contains h) ht
  obtain ⟨ts, rfl⟩ := List.head?_eq_some_iff.mp hhead
  have hrow : Grammar.IsSentential ctx (a ++ (before ++ [.production p, y] ++ after) ++ b) :=
    .replace (by simpa using hu) (yields_row hw)
  have htext : Grammar.IsSentential ctx ((a ++ before ++ [.production p]) ++ (t :: ts).map .token ++ (after ++ b)) :=
    .replace (by simpa using hrow) hts
  exact ⟨_, htext, a ++ before, ts.map .token ++ (after ++ b), by simp⟩

/-- What can come after a production can come after the last part of its row. -/
theorem canPrecede_of_last (hq : q.CanPrecede ctx t) (hlast : .production p ∈ (q.outline ctx).lasts) :
    p.CanPrecede ctx t := by
  obtain ⟨u, hu, before, after, rfl⟩ := hq
  obtain ⟨w, hw, hlast⟩ := (q.outlines ctx).lasts.mp hlast
  obtain ⟨w, rfl⟩ := List.getLast?_eq_some_iff.mp hlast
  have hrow : Grammar.IsSentential ctx (before ++ (w ++ [.production p]) ++ .token t :: after) :=
    .replace (by simpa using hu) (yields_row hw)
  exact ⟨_, hrow, before ++ w, after, by simp⟩

/-- What a token comes after is a part of a unit. -/
theorem Production.CanPrecede.isReachable (h : p.CanPrecede ctx t) : p.IsReachable ctx := by
  obtain ⟨u, hu, hpair⟩ := h
  exact ⟨u, hu, hpair.subset (by simp)⟩

namespace Findings

variable {m : Findings}

/-- Adding what a row tells leaves a table sound. -/
theorem Sound.addRow (hm : m.Sound ctx) (q : Production) : (m.addRow ctx q).Sound ctx := by
  unfold Findings.addRow
  split
  · exact hm
  · rename_i hnew
    obtain ⟨t, ht⟩ := TokenSet.exists_contains_of_not_isEmpty (by simpa using hnew)
    have hq : q.IsReachable ctx := (hm q t ht).isReachable
    have hpairs : ((q.outline ctx).pairs.foldl (fun m r => m.add r.1 (r.2.starts ctx)) m).Sound ctx := by
      refine List.foldlRecOn _ _ hm fun m' hm' r hr => hm'.add ?_
      rintro p hp t ht
      exact canPrecede_of_pair hq (by rw [← hp]; exact hr) ht
    refine List.foldlRecOn _ _ hpairs fun m' hm' x hx => hm'.add ?_
    rintro p rfl t ht
    exact canPrecede_of_last (hm' q t ht) hx

/-- So the table is sound after any number of rounds. -/
theorem sound_after (ctx : Context) (n : Nat) : (after ctx n).Sound ctx := by
  induction n with
  | zero =>
    refine List.foldlRecOn _ _ ?_ fun m hm start hstart => hm.add ?_
    · intro p t ht
      simp [contains_of] at ht
    · rintro p hp t ht
      obtain rfl : start = p := by simpa using hp
      obtain rfl : t = .eof := by simpa using ht
      exact ⟨_, ⟨start, hstart, .refl⟩, List.infix_refl _⟩
  | succ n ih => exact List.foldlRecOn _ _ ih fun m hm q _ => hm.addRow q

end Findings

/-- A token in the FOLLOW set of a production in use does come after it. -/
theorem canPrecede_of_contains (hp : p.isUsed ctx = true) (h : (p.follow ctx).contains t = true) :
    p.CanPrecede ctx t := by
  have hall : ∀ ctx ∈ Context.all, ∀ p ∈ Production.all, p.isUsed ctx = true →
      (Findings.after ctx 4).of p = p.follow ctx := by
    decide +kernel
  rw [← hall ctx ctx.mem_all p p.mem_all hp] at h
  exact Findings.sound_after ctx 4 p t h

/-! ## The tables -/

/-- A production is a part of some unit if and only if the kind of records of the context has it. -/
theorem isReachable_iff : p.IsReachable ctx ↔ p.isUsed ctx = true := by
  constructor
  · exact Production.IsReachable.isUsed
  · intro hp
    have hall : ∀ ctx ∈ Context.all, ∀ p ∈ Production.all, (p.follow ctx).isEmpty = false := by decide
    obtain ⟨t, ht⟩ := TokenSet.exists_contains_of_not_isEmpty (hall ctx ctx.mem_all p p.mem_all)
    exact (canPrecede_of_contains hp ht).isReachable

/-- The FIRST set of a production of the grammar holds the tokens that its texts can start with, and its FOLLOW set
those that can come right after it in a unit. -/
theorem first_and_follow_exact (ctx : Context) (p : Production) (hp : p.IsReachable ctx) (t : Token) :
    ((p.first ctx).contains t = true ↔ CanStart ctx [.production p] t) ∧
      ((p.follow ctx).contains t = true ↔ p.CanPrecede ctx t) :=
  ⟨⟨canStart_of_contains, CanStart.contains_first⟩,
    canPrecede_of_contains hp.isUsed, Production.CanPrecede.contains_follow⟩

/-- Without variant records, the field lists of a record can come before the `IN` of a record of variable size. -/
theorem fieldListSequence_first_and_follow :
    Production.fieldListSequence.IsReachable ⟨false, false⟩ ∧
      CanStart ⟨false, false⟩ [.production .fieldListSequence] .ident ∧
      ¬CanStart ⟨false, false⟩ [.production .fieldListSequence] .semicolon ∧
      Production.fieldListSequence.CanPrecede ⟨false, false⟩ .kwIn ∧
      ¬Production.fieldListSequence.CanPrecede ⟨false, false⟩ .semicolon := by
  have hreach : Production.fieldListSequence.IsReachable ⟨false, false⟩ := isReachable_iff.mpr rfl
  have hident := first_and_follow_exact ⟨false, false⟩ .fieldListSequence hreach .ident
  have hin := first_and_follow_exact ⟨false, false⟩ .fieldListSequence hreach .kwIn
  have hsemicolon := first_and_follow_exact ⟨false, false⟩ .fieldListSequence hreach .semicolon
  exact ⟨hreach, hident.1.mp (by decide), fun h => absurd (hsemicolon.1.mpr h) (by decide), hin.2.mp (by decide),
    fun h => absurd (hsemicolon.2.mpr h) (by decide)⟩

end Modula
