import Frontend.Proofs.Session.Draft

/-! # Bounded memory does not change the meaning of a text

A pool that runs out shows as the refusal it is and as nothing else. One with a larger reservation
answers the same wherever the smaller one suffices, and counts the same.
-/
namespace Frontend.Session
open Pool (System Config)

/-- Reads texts one after another into one pool: the answers, each with the pool it leaves. -/
def parses : List (System × Text) → Pool → Log.Journal → List (Except ParseError Program × Pool)
  | [], _, _ => []
  | (sys, source) :: jobs, pool, journal =>
    match parseText sys source pool journal with
    | (x, s) => (x, s.pool) :: parses jobs s.pool s.journal

def Served (x : Except ParseError Program) : Prop := ∀ f, x ≠ .error (.internal (.pool f))

theorem served_of_ok {x : Except ParseError Program} {p : Program} (h : x = .ok p) : Served x := by
  rw [h]
  rintro f ⟨⟩

theorem served_of_answered {r : Except Pool.Failure Unit} {x : Except ParseError Program}
    (h : Served (answered r x)) : r = .ok () := by
  cases r with
  | ok u => rfl
  | error f => exact absurd rfl (h f)

variable {sys sys' : System} {c d : Config} {p q : Pool}

/-- Two pools in step answer alike, as long as the first one does not give out. -/
theorem parseText_inStep (h : p.InStep q) (hp : p.Sound c) (hq : q.Sound d)
    (hgrant : sys.Covers sys') {source : Text} {journal : Log.Journal}
    (hserved : Served (parseText sys source p journal).1) (journal' : Log.Journal) :
    (parseText sys source p journal).1 = (parseText sys' source q journal').1 ∧
      (parseText sys source p journal).2.pool.InStep (parseText sys' source q journal').2.pool ∧
      (parseText sys source p journal).2.pool.Sound c ∧
      (parseText sys' source q journal').2.pool.Sound d := by
  obtain ⟨hanswer, hpool⟩ := parseText_eq sys source p journal
  obtain ⟨hanswer', hpool'⟩ := parseText_eq sys' source q journal'
  rw [hanswer] at hserved
  have hok := served_of_answered hserved
  obtain ⟨hok', hstep⟩ := h.serve_ok hp hq hgrant (requests_ordinary source) hok
  rw [hanswer, hanswer', hpool, hpool', hok, hok']
  exact ⟨rfl, hstep, hp.serve sys _, hq.serve sys' _⟩

theorem parses_inStep (h : p.InStep q) (hp : p.Sound c) (hq : q.Sound d)
    {jobs jobs' : List (System × Text)} (htexts : jobs.map Prod.snd = jobs'.map Prod.snd)
    (hgrant : ∀ j ∈ jobs', j.1.GrantsAll) {journal : Log.Journal}
    (hserved : ∀ r ∈ parses jobs p journal, Served r.1) (journal' : Log.Journal) :
    (parses jobs p journal).map (fun r => (r.1, r.2.counts)) =
      (parses jobs' q journal').map (fun r => (r.1, r.2.counts)) := by
  induction jobs generalizing jobs' p q journal journal' with
  | nil =>
    obtain rfl := List.map_eq_nil_iff.1 htexts.symm
    rfl
  | cons j jobs ih =>
    cases jobs' with
    | nil => cases htexts
    | cons j' jobs' =>
      obtain ⟨sys, source⟩ := j
      obtain ⟨sys', source'⟩ := j'
      obtain ⟨hsource, hrest⟩ := List.cons.inj htexts
      obtain rfl : source = source' := hsource
      rw [parses, List.forall_mem_cons] at hserved
      obtain ⟨hgrant, hgrants⟩ := List.forall_mem_cons.1 hgrant
      obtain ⟨hserved, hserveds⟩ := hserved
      obtain ⟨hanswer, hstep, hp', hq'⟩ :=
        parseText_inStep h hp hq (hgrant.covers sys) hserved journal'
      simp only [parses, List.map_cons]
      rw [hanswer, hstep.counts_eq, ih hstep hp' hq' hrest hgrants hserveds]

/-- Whatever was read into a pool before, a text answers there as in a pool that is never exhausted, or
with the first refusal of what it asks for. When a pool suffices for some texts, one with a larger
reservation and chunks of the same size answers the same and counts the same after each of them. Only
a text too long for any memory is refused by a pool that is never exhausted. -/
theorem memory_bounded (hp : Pool.create sys c = .ok p) (hd : d.Valid) (hchunk : c.chunk = d.chunk)
    (hres : c.reservation ≤ d.reservation) (hgrant : sys'.GrantsAll) :
    (∀ source, source.length + 3 < Parser.roomLimit → Served (unbounded source)) ∧
    (∀ sys source pool journal, (parseText sys source pool journal).1 =
      answered (pool.serve sys (requests source)).1 (unbounded source)) ∧
    (∀ sys sys' source pool fresh journal journal',
      Served (parseText sys' source fresh journal').1 →
      (parseText sys source pool journal).1 = (parseText sys' source fresh journal').1 ∨
        ∃ f, (parseText sys source pool journal).1 = .error (.internal (.pool f))) ∧
    ∃ q, Pool.create sys' d = .ok q ∧ ∀ jobs jobs' journal journal',
      jobs.map Prod.snd = jobs'.map Prod.snd → (∀ j ∈ jobs', j.1.GrantsAll) →
      (∀ r ∈ parses jobs p journal, Served r.1) →
      (parses jobs p journal).map (fun r => (r.1, r.2.counts)) =
        (parses jobs' q journal').map (fun r => (r.1, r.2.counts)) := by
  refine ⟨fun source h => drafted_granted source h,
    fun sys source pool journal => (parseText_eq sys source pool journal).1, ?_, ?_⟩
  · intro sys sys' source pool fresh journal journal' hserved
    rw [(parseText_eq sys' source fresh journal').1] at hserved ⊢
    rw [(parseText_eq sys source pool journal).1, served_of_answered hserved]
    cases (pool.serve sys (requests source)).1 with
    | ok u => exact .inl rfl
    | error f => exact .inr ⟨f, rfl⟩
  · obtain ⟨q, hq, hstep⟩ := Pool.created_inStep hp hd hchunk hres (hgrant.covers sys)
    refine ⟨q, hq, fun jobs jobs' journal journal' htexts hgrants hserved => ?_⟩
    exact parses_inStep hstep (.created hp) (.created hq) htexts hgrants hserved journal'

/-- Two texts for which a small pool suffices as a larger one does, and the first of them in a pool of one
page, which does not suffice for it. -/
theorem memory_bounded_two_texts :
    let jobs : List (System × Text) := [(.standard, "f(){}"), (.standard, "f(")]
    let jobs' : List (System × Text) := [(.full, "f(){}"), (.full, "f(")]
    let page : Pool := ⟨⟨0x1000, 0x1000⟩, ⟨0, 0x1000, 16⟩, [], 0, 0x1000⟩
    let refusal : ParseError := .internal (.pool (.exhausted 768 0x1000 0x1000))
    (∃ p q, Pool.create .standard ⟨0x4000, 0x1000⟩ = .ok p ∧
      Pool.create .full ⟨0x8000, 0x1000⟩ = .ok q ∧
      (parses jobs p (.empty .info)).map (fun r => (r.1, r.2.counts)) =
        (parses jobs' q (.empty .info)).map (fun r => (r.1, r.2.counts))) ∧
    (parseText .standard "f(){}" page (.empty .info)).1 = .error refusal ∧
    answered (page.serve .standard (requests "f(){}")).1 (unbounded "f(){}") = .error refusal ∧
    Served (unbounded "f(){}") := by
  have hrefused : (parseText .standard "f(){}" ⟨⟨0x1000, 0x1000⟩, ⟨0, 0x1000, 16⟩, [], 0, 0x1000⟩
      (.empty .info)).1 = .error (.internal (.pool (.exhausted 768 0x1000 0x1000))) := rfl
  intro jobs jobs' page refusal
  have hp : Pool.create .standard ⟨0x4000, 0x1000⟩ =
      .ok ⟨⟨0x4000, 0x1000⟩, ⟨0, 0x1000, 16⟩, [], 0, 0x1000⟩ := rfl
  have hd : Config.Valid ⟨0x8000, 0x1000⟩ := ⟨⟨12, rfl⟩, by decide, ⟨8, rfl⟩⟩
  obtain ⟨hserved, hanswer, -, q, hq, h⟩ :=
    memory_bounded hp hd rfl (by decide) System.full_grantsAll
  have hgrants : ∀ j ∈ jobs', j.1.GrantsAll := by simp [jobs', System.full_grantsAll]
  have hrun : ∀ r ∈ parses jobs ⟨⟨0x4000, 0x1000⟩, ⟨0, 0x1000, 16⟩, [], 0, 0x1000⟩ (.empty .info),
      (match r.1 with
        | .error (.internal (.pool _)) => false
        | _ => true) = true := by decide
  refine ⟨⟨_, q, hp, hq, h jobs jobs' _ _ rfl hgrants ?_⟩, hrefused,
    (hanswer _ _ _ _).symm.trans hrefused, hserved _ (by decide)⟩
  intro r hr f hf
  have hr := hrun r hr
  rw [hf] at hr
  cases hr

end Frontend.Session
