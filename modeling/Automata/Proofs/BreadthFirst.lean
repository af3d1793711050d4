import Automata.Proofs.Subsets
import Automata.Proofs.WordOrder

namespace Automata

variable {α : Type}

namespace DFA

/-- The edge leads to its target before any other edge does, from a state with a lower handle,
and the edges before it lead to lower handles than it does. -/
def Discovers (d : DFA α) (e : Edge α) : Prop :=
  ∃ before after, d.edges.toList = before ++ e :: after ∧ e.source < e.target ∧
    ∀ f ∈ before, f.target < e.target

/-- The edges are drawn state by state and letter by letter, and they lead to the states for the
first time in the order of the states. -/
structure BreadthFirst (d : DFA α) : Prop where
  start : d.start = some 0
  keys_eq : d.edges.toList.map Edge.key = Construction.layout d.alphabet d.size
  discovered : ∀ t, 0 < t → t < d.size → ∃ e, d.Discovers e ∧ e.target = t

/-- The word along the edges that discover a state and the states on the way to it. -/
inductive FirstWord (d : DFA α) : Nat → List α → Prop
  | start : FirstWord d 0 []
  | next {e : Edge α} {word : List α} :
      d.Discovers e → FirstWord d e.source word → FirstWord d e.target (word ++ [e.label])

variable {d : DFA α}

theorem Discovers.mem {e : Edge α} (h : d.Discovers e) : e ∈ d.edges := by
  obtain ⟨before, after, hedges, _⟩ := h
  exact Array.mem_toList_iff.mp (by simp [hedges])

theorem Discovers.source_lt {e : Edge α} (h : d.Discovers e) : e.source < e.target := by
  obtain ⟨_, _, _, hlt, _⟩ := h
  exact hlt

theorem BreadthFirst.size_pos (h : d.BreadthFirst) : 0 < d.size :=
  d.start_lt 0 h.start

theorem BreadthFirst.edges_size (h : d.BreadthFirst) :
    d.edges.size = d.size * d.alphabet.length :=
  Construction.edges_size_of_layout h.keys_eq

theorem BreadthFirst.key_mem (h : d.BreadthFirst) {i : Nat} {a : α} (hi : i < d.size)
    (ha : a ∈ d.alphabet) : (i, a) ∈ d.edges.toList.map Edge.key :=
  (Construction.mem_keys_of_layout h.keys_eq).mpr ⟨hi, ha⟩

theorem BreadthFirst.exists_firstWord (h : d.BreadthFirst) {t : Nat} (ht : t < d.size) :
    ∃ word, d.FirstWord t word := by
  induction t using Nat.strongRecOn with
  | ind t ih =>
    rcases Nat.eq_zero_or_pos t with rfl | hpos
    · exact ⟨[], .start⟩
    · obtain ⟨e, he, rfl⟩ := h.discovered t hpos ht
      obtain ⟨word, hword⟩ := ih e.source he.source_lt (Nat.lt_trans he.source_lt ht)
      exact ⟨word ++ [e.label], .next he hword⟩

end DFA

variable [DecidableEq α]

/-- The order in which edges are drawn: by their states, and by their letters for one state. -/
def Edge.Before (alphabet : List α) (e f : Edge α) : Prop :=
  e.source < f.source ∨ e.source = f.source ∧ alphabet.idxOf e.label < alphabet.idxOf f.label

theorem Edge.Before.asymm {alphabet : List α} {e f : Edge α} (h : e.Before alphabet f) :
    ¬ f.Before alphabet e := by
  unfold Edge.Before at h ⊢
  omega

namespace Construction

/-- The layout runs through the sources, and for one source through the letters in order. -/
theorem layout_pairwise {letters : List α} (h : letters.Nodup) (count : Nat) :
    (layout letters count).Pairwise fun p q =>
      p.1 < q.1 ∨ p.1 = q.1 ∧ letters.idxOf p.2 < letters.idxOf q.2 := by
  induction count with
  | zero => exact .nil
  | succ count ih =>
    rw [layout_succ, List.pairwise_append]
    refine ⟨ih, ?_, ?_⟩
    · apply List.pairwise_map.mpr
      exact (Word.idxOf_pairwise h).imp fun hab => .inr ⟨rfl, hab⟩
    · intro p hp q hq
      obtain ⟨a, _, rfl⟩ := List.mem_map.mp hq
      exact .inl (mem_layout.mp hp).1

end Construction

namespace DFA

variable {d : DFA α}

/-- The word is one over the alphabet, and leads from the start state to a state. -/
def LeadsTo (d : DFA α) (word : List α) (i : Nat) : Prop :=
  (∀ a ∈ word, a ∈ d.alphabet) ∧ d.start.bind (d.run · word) = some i

/-- Of the words that lead to a state the one that precedes all others. -/
def LeastWord (d : DFA α) (i : Nat) (word : List α) : Prop :=
  d.LeadsTo word i ∧ ∀ other, d.LeadsTo other i →
    other = word ∨ Word.Precedes d.alphabet word other

theorem run_concat (d : DFA α) (i : Nat) (word : List α) (a : α) :
    d.run i (word ++ [a]) = (d.run i word).bind (d.target? · a) := by
  simp [run, List.foldlM_append]

theorem FirstWord.run {t : Nat} {word : List α} (hword : d.FirstWord t word) :
    d.run 0 word = some t := by
  induction hword with
  | start => rfl
  | next he _ ih =>
    rw [run_concat, ih, Option.bind_some]
    exact target?_eq_some_iff.mpr he.mem

namespace BreadthFirst

variable (h : d.BreadthFirst)
include h

theorem leadsTo_iff {word : List α} {i : Nat} : d.LeadsTo word i ↔ d.run 0 word = some i := by
  rw [LeadsTo, h.start, Option.bind_some]
  exact ⟨And.right, fun hrun => ⟨mem_alphabet_of_run hrun, hrun⟩⟩

theorem run_lt {word : List α} {i : Nat} (hrun : d.run 0 word = some i) : i < d.size :=
  run_lt_size h.size_pos hrun

theorem exists_target {i : Nat} {a : α} (hi : i < d.size) (ha : a ∈ d.alphabet) :
    ∃ t, d.target? i a = some t :=
  Option.isSome_iff_exists.mp (mem_keys_iff.mp (h.key_mem hi ha))

/-- Every word over the alphabet leads somewhere. -/
theorem exists_run {word : List α} (hword : ∀ a ∈ word, a ∈ d.alphabet) :
    ∃ i, d.run 0 word = some i := by
  induction word using List.reverseRecOn with
  | nil => exact ⟨0, rfl⟩
  | append_singleton word a ih =>
    obtain ⟨i, hi⟩ := ih fun b hb => hword b (List.mem_append_left _ hb)
    obtain ⟨t, ht⟩ := h.exists_target (h.run_lt hi) (hword a (by simp))
    exact ⟨t, by rw [run_concat, hi, Option.bind_some, ht]⟩

theorem pairwise : d.edges.toList.Pairwise (Edge.Before d.alphabet) := by
  have hkeys := Construction.layout_pairwise d.alphabet_nodup d.size
  rw [← h.keys_eq, List.pairwise_map] at hkeys
  exact hkeys

/-- No edge that leads to a state, or to a later one, comes before the edge that discovers it. -/
theorem eq_or_before {e f : Edge α} (he : d.Discovers e) (hf : f ∈ d.edges)
    (hle : e.target ≤ f.target) : f = e ∨ e.Before d.alphabet f := by
  obtain ⟨before, after, hedges, _, hbefore⟩ := he
  have hmem := Array.mem_toList_iff.mpr hf
  have hpairwise := h.pairwise
  rw [hedges] at hmem hpairwise
  rcases List.mem_append.mp hmem with hmem | hmem
  · exact absurd (hbefore f hmem) (Nat.not_lt.mpr hle)
  · rcases List.mem_cons.mp hmem with hmem | hmem
    · exact .inl hmem
    · have hrest := (List.pairwise_append.mp hpairwise).2.1
      exact .inr ((List.pairwise_cons.mp hrest).1 f hmem)

/-- A state is discovered over one edge. -/
theorem discovers_inj {e f : Edge α} (he : d.Discovers e) (hf : d.Discovers f)
    (htarget : e.target = f.target) : e = f := by
  rcases h.eq_or_before he hf.mem (Nat.le_of_eq htarget) with hfe | hef
  · exact hfe.symm
  · rcases h.eq_or_before hf he.mem (Nat.le_of_eq htarget.symm) with hef' | hfe
    · exact hef'
    · exact absurd hfe hef.asymm

/-- A state has one first word, for the edge that enters it first is determined. -/
theorem firstWord_unique {t : Nat} {v w : List α} (hv : d.FirstWord t v) (hw : d.FirstWord t w) :
    v = w := by
  induction hv generalizing w with
  | start =>
    generalize ht : 0 = t at hw
    cases hw with
    | start => rfl
    | next he _ => exact absurd he.source_lt (ht ▸ Nat.not_lt_zero _)
  | @next e v he _ ih =>
    generalize ht : e.target = t at hw
    cases hw with
    | start => exact absurd he.source_lt (ht ▸ Nat.not_lt_zero _)
    | next hf hw =>
      obtain rfl := h.discovers_inj he hf ht
      rw [ih hw]

/-- First words are in the order of the states. By induction on the later one: the states before
the last letters are in order too, or they are one state and the letters are in order. -/
theorem firstWord_precedes {t u : Nat} {v w : List α} (hv : d.FirstWord t v)
    (hw : d.FirstWord u w) (htu : t < u) : Word.Precedes d.alphabet v w := by
  induction hw generalizing t v with
  | start => exact absurd htu (Nat.not_lt_zero t)
  | @next f w hf hw ih =>
    cases hv with
    | start => exact Word.nil_precedes (by simp)
    | @next e v he hv =>
      rcases h.eq_or_before he hf.mem (Nat.le_of_lt htu) with rfl | hlt | ⟨hsource, hlabel⟩
      · exact absurd htu (Nat.lt_irrefl _)
      · exact (ih hv hlt).append _ _
      · obtain rfl := h.firstWord_unique hv (hsource ▸ hw)
        exact Word.precedes_append_of_idxOf_lt hlabel v

/-- No word precedes the first word of the state that it leads to. -/
theorem eq_or_firstWord_precedes {t : Nat} {v w : List α} (hw : d.FirstWord t w)
    (hv : d.run 0 v = some t) : v = w ∨ Word.Precedes d.alphabet w v := by
  induction v using List.reverseRecOn generalizing t w with
  | nil =>
    obtain rfl := Option.some.inj hv
    exact .inl (h.firstWord_unique .start hw)
  | append_singleton v b ih =>
    rw [run_concat] at hv
    obtain ⟨s, hs, htarget⟩ := Option.bind_eq_some_iff.mp hv
    have hedge := target?_eq_some_iff.mp htarget
    cases hw with
    | start => exact .inr (Word.nil_precedes (by simp))
    | @next e w he hw =>
      rcases h.eq_or_before he hedge (Nat.le_refl _) with hsame | hlt | ⟨hsource, hlabel⟩
      · obtain rfl : s = e.source := congrArg Edge.source hsame
        obtain rfl : b = e.label := congrArg Edge.label hsame
        rcases ih hw hs with rfl | hlt
        · exact .inl rfl
        · exact .inr (hlt.append _ _)
      -- The word comes by a later state, whose first word lies between the two.
      · right
        obtain ⟨u, hu⟩ := h.exists_firstWord (h.run_lt hs)
        have hwu := h.firstWord_precedes hw hu hlt
        rcases ih hu hs with rfl | huv
        · exact hwu.append _ _
        · exact (hwu.trans huv).append _ _
      · right
        rcases ih (hsource ▸ hw) hs with rfl | hlt
        · exact Word.precedes_append_of_idxOf_lt hlabel _
        · exact hlt.append _ _

/-- The first word found for a state is its least word. -/
theorem leastWord_iff {t : Nat} {word : List α} : d.LeastWord t word ↔ d.FirstWord t word := by
  have hleast : ∀ {word}, d.FirstWord t word → d.LeastWord t word := by
    intro word hword
    refine ⟨h.leadsTo_iff.mpr (hword.run), ?_⟩
    exact fun other hother => h.eq_or_firstWord_precedes hword (h.leadsTo_iff.mp hother)
  constructor
  · intro hword
    obtain ⟨first, hfirst⟩ := h.exists_firstWord (h.run_lt (h.leadsTo_iff.mp hword.1))
    rcases hword.2 first (hleast hfirst).1 with rfl | hlt
    · exact hfirst
    · rcases (hleast hfirst).2 word hword.1 with rfl | hgt
      · exact hfirst
      · exact absurd hgt hlt.asymm
  · exact hleast

theorem exists_leastWord {t : Nat} (ht : t < d.size) : ∃ word, d.LeastWord t word := by
  obtain ⟨word, hword⟩ := h.exists_firstWord ht
  exact ⟨word, h.leastWord_iff.mpr hword⟩

theorem leastWord_precedes {t u : Nat} {v w : List α} (hv : d.LeastWord t v)
    (hw : d.LeastWord u w) (htu : t < u) : Word.Precedes d.alphabet v w :=
  h.firstWord_precedes (h.leastWord_iff.mp hv) (h.leastWord_iff.mp hw) htu

end BreadthFirst

end DFA

namespace Construction

theorem Finished.breadthFirst {n : NFA α} {settings : Settings} {c : Construction n}
    (h : Finished settings c) : c.dfa.BreadthFirst where
  start := h.start
  keys_eq := by rw [h.keys_eq, h.alphabet, h.size]
  discovered t hpos ht := by
    obtain ⟨before, e, after, hedges, rfl, hsource, hbefore⟩ := h.mentioned t hpos (h.size ▸ ht)
    exact ⟨e, ⟨before, after, hedges, hsource, hbefore⟩, rfl⟩

end Construction

namespace NFA

/-- The states of the result are numbered in the order of the words that lead to them: each state
has a least word, and of two states the one with the lower number has the lesser word. -/
theorem determinize_numbered_by_least_words (n : NFA α) (settings : Settings) (d : DFA α)
    (h : (n.determinize settings).result = .ok d) :
    d.start = some 0 ∧ d.alphabet = n.alphabet ∧
    (∀ i < d.size, ∃ word, d.LeastWord i word) ∧
    ∀ i j v w, i < j → d.LeastWord i v → d.LeastWord j w → Word.Precedes n.alphabet v w := by
  obtain ⟨c, hc, rfl⟩ := finished_of_determinize h
  have hb := hc.breadthFirst
  refine ⟨hb.start, hc.alphabet, fun i => hb.exists_leastWord, ?_⟩
  intro i j v w hij hv hw
  rw [← hc.alphabet]
  exact hb.leastWord_precedes hv hw hij

/-- The last two of three states. -/
theorem determinize_numbered_by_least_words_lasso :
    ∃ d, (lasso.determinize {}).result = .ok d ∧ ∃ v w, d.LeastWord 1 v ∧ d.LeastWord 2 w ∧
      Word.Precedes lasso.alphabet v w := by
  obtain ⟨d, h⟩ := lasso_determinize
  obtain ⟨_, _, hleast, hprecedes⟩ := determinize_numbered_by_least_words lasso {} d h
  have hsize := lasso_size h
  obtain ⟨v, hv⟩ := hleast 1 (by omega)
  obtain ⟨w, hw⟩ := hleast 2 (by omega)
  exact ⟨d, h, v, w, hv, hw, hprecedes 1 2 v w (by decide) hv hw⟩

end NFA

end Automata
