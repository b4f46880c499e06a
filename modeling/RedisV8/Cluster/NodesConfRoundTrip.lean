import RedisV8.Cluster.NodesConfLine

/-!
# Loading the configuration file that was written

The loader goes through the lines in the order in which they were written.  A
node that a line refers to before its own line is created without flags, and
completed when its line comes.  A configuration comes back unless an address
has a colon, a slot is both migrating and importing, or a node has slot 16382
and not 16383, which is then read as its own unless the line of its owner comes
first.
-/

namespace RedisV8.Cluster.NodesConf

open Util Aof Cluster Outcomes List Option Config

variable {cfg : Config} {links : Links} {names past : List Bytes}
  {name : Bytes} {n : Entry} {t st : Config}

/-- The configurations of a running node: `names` are the known nodes in the
order of the dictionary, none in handshake. -/
structure WellFormed (cfg : Config) (names : List Bytes) : Prop where
  nodup : names.Nodup
  node : ∀ name, (cfg.node name).isSome = true ↔ name ∈ names
  isName : ∀ name ∈ names, IsName name
  handshake : ∀ name n, cfg.node name = some n → n.flags.handshake = false
  myself : ∃ name ∈ names, cfg.myself = some name
  flag : ∀ name n, cfg.node name = some n →
    (n.flags.myself = true ↔ cfg.myself = some name)
  ip : ∀ name n, cfg.node name = some n →
    n.ip.length < 46 ∧ ∀ b ∈ n.ip, isTokenByte b = true
  port : ∀ name n, cfg.node name = some n → -2 ^ 31 ≤ n.port ∧ n.port < 2 ^ 31
  configEpoch : ∀ name n, cfg.node name = some n → n.configEpoch < 2 ^ 64
  slaveof : ∀ name n master, cfg.node name = some n →
    n.slaveof = some master → master ∈ names
  slots : ∀ j owner, cfg.slots j = some owner → owner ∈ names
  migrating : ∀ j other, cfg.migratingSlotsTo j = some other → other ∈ names
  importing : ∀ j other, cfg.importingSlotsFrom j = some other → other ∈ names

/-! ## One line -/

section Line

/-- While the line of a node is read: `n` is what is known of it, the nodes
whose lines are `past` are complete, and other nodes are as they are created.
The rest is as in `t`. -/
structure Building (cfg : Config) (names past : List Bytes) (name : Bytes)
    (n : Entry) (t st : Config) : Prop where
  self : st.node name = some n
  complete : ∀ q ∈ past, st.node q = (cfg.node q).map restored
  other : ∀ q, q ∉ past → q ≠ name → st.node q = none ∨
    st.node q = some createNode ∧ q ∈ names
  tables : st = { t with node := st.node }

theorem Building.modify (h : Building cfg names past name n t st)
    (hname : name ∉ past) (f : Entry → Entry) :
    Building cfg names past name (f n) t (st.modify name f) where
  self := by simp [Config.modify, h.self]
  complete q hq := by
    have hne : q ≠ name := fun heq => hname (heq ▸ hq)
    simpa [Config.modify, hne] using h.complete q hq
  other q hq hne := by simpa [Config.modify, hne] using h.other q hq hne
  tables := by
    conv_lhs => rw [h.tables]
    rfl

theorem Building.findOrCreate (h : Building cfg names past name n t st)
    (hpast : ∀ q ∈ past, (cfg.node q).isSome = true) {o : Bytes}
    (hlength : 40 ≤ o.length) (hmem : o.take 40 ∈ names) :
    Returns ∅ (findOrCreate st o) fun p =>
      p.2 = o.take 40 ∧ Building cfg names past name n t p.1 := by
  rw [NodesConf.findOrCreate, if_neg (not_lt.mpr hlength)]
  simp only
  split
  next => exact .ok ⟨rfl, h⟩
  next hnone =>
    refine .ok ⟨rfl, ⟨?_, fun q hq => ?_, fun q hq hne => ?_, ?_⟩⟩
    · have hne : name ≠ o.take 40 := fun heq => by
        simp [← heq, h.self] at hnone
      simpa [hne] using h.self
    · have hne : q ≠ o.take 40 := fun heq => by
        have hsome := congrArg Option.isSome (h.complete q hq)
        rw [heq, hnone, isSome_map, ← heq, hpast q hq] at hsome
        simp at hsome
      simpa [hne] using h.complete q hq
    · by_cases heq : q = o.take 40
      · exact .inr ⟨by simp [heq], heq ▸ hmem⟩
      · simpa [heq] using h.other q hq hne
    · conv_lhs => rw [h.tables]

theorem Building.readFlags (h : Building cfg names past name n t st)
    (hname : name ∉ past) (hflags : n.flags = noFlags) {f : Flags}
    (hf : f.myself = true → t.myself = none) :
    Returns ∅ (readFlags st name (flagsToken f)) fun st' =>
      Building cfg names past name { n with flags := f }
        { t with myself := if f.myself then some name else t.myself } st' := by
  have hmyself : st.myself = t.myself := by rw [h.tables]
  rw [NodesConf.readFlags, splitOn_flagsToken]
  simp only [h.self, map_some, getD_some, hflags, hmyself]
  rw [foldlM_readFlag hf]
  refine .ok ?_
  have hmodify := h.modify hname fun n => { n with flags := f }
  refine ⟨hmodify.self, hmodify.complete, hmodify.other, ?_⟩
  conv_lhs => rw [hmodify.tables]

theorem Building.readMaster (h : Building cfg names past name n t st)
    (hname : name ∉ past) (hpast : ∀ q ∈ past, (cfg.node q).isSome = true)
    (hnone : n.slaveof = none) {slaveof : Option Bytes}
    (hslaveof : ∀ master, slaveof = some master →
      IsName master ∧ master ∈ names) :
    Returns ∅ (readMaster st name (slaveof.getD [charMinus])) fun st' =>
      Building cfg names past name { n with slaveof := slaveof } t st' := by
  cases slaveof with
  | none =>
    have hn : { n with slaveof := none } = n := by rw [← hnone]
    rw [hn]
    exact .pure h
  | some master =>
    obtain ⟨hmaster, hmem⟩ := hslaveof master rfl
    rw [NodesConf.readMaster, getD_some, if_neg hmaster.head]
    refine (h.findOrCreate hpast hmaster.length.ge
      (hmaster.take.symm ▸ hmem)).bind fun ⟨st', q⟩ hq => ?_
    obtain rfl : q = master := hq.1.trans hmaster.take
    exact .pure (hq.2.modify hname fun n => { n with slaveof := some q })

theorem Building.claim (h : Building cfg names past name n t st)
    (p : ℕ → Prop) [DecidablePred p] :
    Building cfg names past name n (t.claim name p) (st.claim name p) := by
  refine ⟨h.self, h.complete, h.other, ?_⟩
  conv_lhs => rw [h.tables]
  rfl

/-- The mark of a slot that is read back. -/
def Config.mark (t cfg : Config) (j : Slot) : Config :=
  match cfg.migratingSlotsTo j, cfg.importingSlotsFrom j with
  | some target, _ =>
    { t with migratingSlotsTo :=
        Function.update t.migratingSlotsTo j (some target) }
  | none, some source =>
    { t with importingSlotsFrom :=
        Function.update t.importingSlotsFrom j (some source) }
  | none, none => t

theorem readMark_text {q : Bytes} (hq : IsName q) (hmem : q ∈ names)
    (h : Building cfg names past name n t st)
    (hpast : ∀ q ∈ past, (cfg.node q).isSome = true) {sign : UInt8}
    (j : Slot) :
    Returns ∅ (readSlots name st ([charOpen] ++ natText j ++
      [charMinus, sign, charMinus] ++ q.take 40 ++ [charClose])) fun st' =>
        Building cfg names past name n
          (if sign = charGreater then
            { t with migratingSlotsTo :=
                Function.update t.migratingSlotsTo j (some q) }
          else
            { t with importingSlotsFrom :=
                Function.update t.importingSlotsFrom j (some q) }) st' := by
  have htext : [charOpen] ++ natText j ++ [charMinus, sign, charMinus] ++
      q.take 40 ++ [charClose] = (charOpen :: natText j) ++
        charMinus :: (sign :: charMinus :: (q ++ [charClose])) := by
    simp [hq.take]
  have hminus : charMinus ∉ charOpen :: natText j := by
    simp only [mem_cons, not_or]
    exact ⟨by decide, charMinus_notMem_natText j⟩
  have hzero : (0 : UInt8) ∉ charOpen :: natText j := by
    simp only [mem_cons, not_or]
    exact ⟨by decide, zero_notMem_natText j⟩
  have hj : intEntry (atoi ((charOpen :: natText j).drop 1)) = .ok j := by
    rw [drop_one, tail_cons, atoi_natText_self (j.isLt.trans (by decide)),
      intEntry, if_neg (by omega), Int.toNat_natCast]
    exact dif_pos j.isLt
  have htake : (q ++ [charClose]).take 40 = q := by
    rw [← hq.length, take_left]
  have hlength : 40 ≤ (q ++ [charClose]).length := by simp [hq.length]
  rw [htext, readSlots, if_pos (by rfl)]
  generalize charOpen :: natText j = head at hminus hzero hj ⊢
  generalize q ++ [charClose] = rest at htake hlength ⊢
  have hdrop : (head ++ charMinus :: (sign :: charMinus :: rest)).drop
      (head.length + 3) = rest := by
    rw [show head.length + 3 = head.length + 1 + 2 from rfl, ← drop_drop,
      drop_length_succ]
    rfl
  have hsign : (head ++ charMinus :: (sign :: charMinus :: rest)).getD
      (head.length + 1) 0 = sign := by
    rw [getD_eq_getElem?_getD, getElem?_append_right (by omega)]
    simp
  rw [readMark, strchr_append_cons hminus, if_pos hzero]
  simp only [hsign, hdrop, take_left, hj]
  refine (h.findOrCreate hpast hlength (by rw [htake]; exact hmem)).bind ?_
  rintro ⟨st', other⟩ hother
  obtain rfl : other = q := hother.1.trans htake
  have htables : st' = { t with node := st'.node } := hother.2.tables
  show Returns ∅ (ite _ _ _) _
  split_ifs
  · refine .pure ⟨hother.2.self, hother.2.complete, hother.2.other, ?_⟩
    conv_lhs => rw [htables]
  · refine .pure ⟨hother.2.self, hother.2.complete, hother.2.other, ?_⟩
    conv_lhs => rw [htables]

theorem Building.marks (h : Building cfg names past name n t st)
    (hpast : ∀ q ∈ past, (cfg.node q).isSome = true)
    (hnames : ∀ q ∈ names, IsName q)
    (hmigrating : ∀ j q, cfg.migratingSlotsTo j = some q → q ∈ names)
    (himporting : ∀ j q, cfg.importingSlotsFrom j = some q → q ∈ names)
    (slots : List Slot) :
    Returns ∅ ((slots.filterMap (markText cfg)).foldlM (readSlots name) st)
      fun st' => Building cfg names past name n
        (slots.foldl (mark · cfg) t) st' := by
  induction slots generalizing t st with
  | nil => exact .pure h
  | cons j slots ih =>
    rw [filterMap_cons, foldl_cons]
    cases hto : cfg.migratingSlotsTo j with
    | some q =>
      have hq := hmigrating j q hto
      simp only [markText, hto, foldlM_cons, mark]
      refine (readMark_text (hnames q hq) hq h hpast j).bind
        fun st' hst' => ih ?_
      simpa using hst'
    | none =>
      cases hfrom : cfg.importingSlotsFrom j with
      | some q =>
        have hq := himporting j q hfrom
        simp only [markText, hto, hfrom, foldlM_cons, mark]
        refine (readMark_text (hnames q hq) hq h hpast j).bind
          fun st' hst' => ih ?_
        have hne : charLess ≠ charGreater := by decide
        simpa [hne] using hst'
      | none =>
        simp only [markText, hto, hfrom, mark]
        exact ih h

/-- All marks at once. -/
def Config.marked (t cfg : Config) : Config :=
  { t with
    migratingSlotsTo := fun j =>
      (cfg.migratingSlotsTo j).or (t.migratingSlotsTo j)
    importingSlotsFrom := fun j =>
      if (cfg.migratingSlotsTo j).isSome then t.importingSlotsFrom j
      else (cfg.importingSlotsFrom j).or (t.importingSlotsFrom j) }

/-- All marks of some slots. -/
def Config.markedAt (t cfg : Config) (p : Slot → Prop) [DecidablePred p] :
    Config :=
  { t with
    migratingSlotsTo := fun j =>
      if p j then (t.marked cfg).migratingSlotsTo j else t.migratingSlotsTo j
    importingSlotsFrom := fun j =>
      if p j then (t.marked cfg).importingSlotsFrom j
      else t.importingSlotsFrom j }

theorem mark_eq (t cfg : Config) (k : Slot) :
    t.mark cfg k = t.markedAt cfg (· = k) := by
  cases hto : cfg.migratingSlotsTo k <;>
    cases hfrom : cfg.importingSlotsFrom k <;>
    simp only [Config.mark, Config.markedAt, hto, hfrom] <;>
    refine Config.ext rfl rfl rfl (funext fun j => ?_) (funext fun j => ?_) <;>
    by_cases hjk : j = k <;>
    simp [Config.marked, hjk, hto, hfrom]

theorem foldl_mark (t cfg : Config) (slots : List Slot) :
    slots.foldl (mark · cfg) t = t.markedAt cfg (· ∈ slots) := by
  induction slots generalizing t with
  | nil => simp [markedAt]
  | cons k slots ih =>
    rw [foldl_cons, ih, mark_eq]
    refine Config.ext rfl rfl rfl (funext fun j => ?_) (funext fun j => ?_) <;>
      cases hto : cfg.migratingSlotsTo j <;>
      rcases eq_or_ne j k with rfl | hjk <;>
      by_cases hj : j ∈ slots <;>
      simp [*, markedAt, marked, ← Option.or_assoc]

theorem foldl_mark_allSlots (t cfg : Config) :
    allSlots.foldl (mark · cfg) t = t.marked cfg := by
  simp [foldl_mark, mem_allSlots, markedAt, marked]

/-- What the line of a node adds to the tables. -/
def Config.withLine (t cfg : Config) (name : Bytes) (n : Entry) : Config :=
  let t := { t with myself := if n.flags.myself then some name else t.myself }
  let t := t.claim name (Covers (slotRanges cfg name))
  if n.flags.myself then t.marked cfg else t

theorem slotRanges_ordered {range : ℕ × ℕ}
    (h : range ∈ slotRanges cfg name) :
    range.1 ≤ range.2 ∧ range.2 < 16384 := by
  unfold slotRanges at h
  exact rangeLoop_ordered (k := 16382) h

/-- What was read from the lines of the nodes in `past`. -/
structure LoadedAfter (cfg : Config) (names past : List Bytes)
    (t st : Config) : Prop where
  complete : ∀ q ∈ past, st.node q = (cfg.node q).map restored
  other : ∀ q, q ∉ past → st.node q = none ∨
    st.node q = some createNode ∧ q ∈ names
  tables : st = { t with node := st.node }

theorem LoadedAfter.findOrCreate (h : LoadedAfter cfg names past t st)
    (hisName : IsName name) (hname : name ∉ past) :
    Returns ∅ (findOrCreate st name) fun p =>
      p.2 = name ∧ Building cfg names past name createNode t p.1 := by
  rw [NodesConf.findOrCreate, if_neg (not_lt.mpr hisName.length.ge)]
  simp only [hisName.take]
  split
  next m hm =>
    have hself := (h.other name hname).resolve_left (by simp [hm])
    exact .ok ⟨rfl, hself.1, h.complete, fun q hq _ => h.other q hq, h.tables⟩
  next =>
    refine .ok ⟨rfl, by simp, fun q hq => ?_, fun q hq hne => ?_, ?_⟩
    · have hne : q ≠ name := fun heq => hname (heq ▸ hq)
      simpa [hne] using h.complete q hq
    · simpa [hne] using h.other q hq
    · conv_lhs => rw [h.tables]

theorem Building.loaded (h : Building cfg names past name n t st)
    {m : Entry} (hm : cfg.node name = some m) (hn : n = restored m) :
    LoadedAfter cfg names (past ++ [name]) t st where
  complete q hq := by
    rcases mem_append.mp hq with hq | hq
    · exact h.complete q hq
    · obtain rfl := mem_singleton.mp hq
      rw [h.self, hm, hn, map_some]
  other q hq := by
    simp only [mem_append, mem_singleton, not_or] at hq
    exact h.other q hq.1 hq.2
  tables := h.tables

theorem loadLine_tokens (addr flags master ping pong epoch connected : Bytes)
    (slots : List Bytes) :
    loadLine st ([name, addr, flags, master, ping, pong, epoch, connected] ++
      slots) = findOrCreate st name >>= fun p =>
        readAddress p.1 p.2 addr >>= fun st =>
          readFlags st p.2 flags >>= fun st =>
            readMaster st p.2 master >>= fun st =>
              slots.foldlM (readSlots p.2) (st.modify p.2 fun n =>
                { n with configEpoch := strtoull epoch }) := rfl

/-- The line of a node completes the node. -/
theorem LoadedAfter.loadLine (h : LoadedAfter cfg names past t st)
    (hwf : WellFormed cfg names) (hname : name ∉ past)
    (hpast : ∀ q ∈ past, q ∈ names) (hn : cfg.node name = some n)
    (hmyself : n.flags.myself = true → t.myself = none) :
    Returns ∅ (loadLine st (name :: lineTokens cfg links name n)) fun st' =>
      LoadedAfter cfg names (past ++ [name]) (t.withLine cfg name n) st' := by
  have hmem : name ∈ names := (hwf.node name).mp (by simp [hn])
  have hsome : ∀ q ∈ past, (cfg.node q).isSome = true :=
    fun q hq => (hwf.node q).mpr (hpast q hq)
  have hip := hwf.ip name n hn
  have hslaveof : ∀ master, n.slaveof = some master →
      IsName master ∧ master ∈ names := fun master hmaster =>
    ⟨hwf.isName _ (hwf.slaveof name n master hn hmaster),
      hwf.slaveof name n master hn hmaster⟩
  have htokens : name :: lineTokens cfg links name n =
      [name, addressToken n, flagsToken n.flags, n.slaveof.getD [charMinus],
        llText (links.pingSent name), llText (links.pongReceived name),
        natText n.configEpoch, if links.linked name || n.flags.myself then
          ascii "connected" else ascii "disconnected"] ++
      ((slotRanges cfg name).map rangeText ++
        if n.flags.myself then allSlots.filterMap (markText cfg) else []) := by
    rw [lineTokens, append_assoc]
    rfl
  have hepoch := strtoull_natText (hwf.configEpoch name n hn)
  rw [htokens, loadLine_tokens]
  refine (h.findOrCreate (hwf.isName name hmem) hname).bind ?_
  rintro ⟨st₁, q⟩ h₁
  obtain rfl : q = name := h₁.1
  rw [readAddress_eq hip.2 hip.1, hepoch]
  refine .ok_bind ?_
  have h₁ := h₁.2.modify hname fun m =>
    { m with ip := (restored n).ip, port := (restored n).port }
  have hflags := h₁.readFlags hname rfl hmyself
  refine hflags.bind fun st₂ h₂ => ?_
  have hmaster := h₂.readMaster hname hsome rfl hslaveof
  refine hmaster.bind fun st₃ h₃ => ?_
  rw [foldlM_append, foldlM_readSlots_ranges fun _ => slotRanges_ordered]
  have h₄ := (h₃.modify hname fun m =>
    { m with configEpoch := n.configEpoch }).claim
      (Covers (slotRanges cfg q))
  refine .ok_bind ?_
  rw [withLine]
  cases hme : n.flags.myself with
  | false =>
    rw [hme] at h₄
    exact .pure (h₄.loaded hn rfl)
  | true =>
    rw [hme] at h₄
    refine (h₄.marks hsome hwf.isName hwf.migrating hwf.importing
      allSlots).imp fun st₅ h₅ => ?_
    rw [foldl_mark_allSlots] at h₅
    exact h₅.loaded hn rfl

end Line

/-! ## The file -/

section File

theorem fgets_line {room : ℕ} {body : Bytes} (hbody : (10 : UInt8) ∉ body)
    (hroom : body.length < room) (rest : Bytes) :
    fgets room (body ++ 10 :: rest) = (body ++ [10], rest) := by
  induction body generalizing room with
  | nil =>
    obtain ⟨room, rfl⟩ := Nat.exists_eq_succ_of_ne_zero
      (Nat.ne_zero_of_lt hroom)
    simp [fgets]
  | cons b body ih =>
    obtain ⟨room, rfl⟩ := Nat.exists_eq_succ_of_ne_zero
      (Nat.ne_zero_of_lt hroom)
    simp only [mem_cons, not_or] at hbody
    have hb : b ≠ 10 := fun h => hbody.1 h.symm
    rw [cons_append, fgets, if_neg hb,
      ih hbody.2 (Nat.lt_of_succ_lt_succ hroom)]
    rfl

/-- What is loaded from the file that was written. -/
def reloaded (cfg : Config) (names : List Bytes) : Config where
  node q := (cfg.node q).map restored
  myself := cfg.myself
  slots j := names.find? fun q => decide (Covers (slotRanges cfg q) j)
  migratingSlotsTo := cfg.migratingSlotsTo
  importingSlotsFrom j :=
    if (cfg.migratingSlotsTo j).isSome then none else cfg.importingSlotsFrom j

/-- The tables after the lines of the nodes in `past`. -/
def tablesAfter (cfg : Config) (past : List Bytes) : Config where
  node _ := none
  myself := if cfg.myself.any past.contains then cfg.myself else none
  slots j := past.find? fun q => decide (Covers (slotRanges cfg q) j)
  migratingSlotsTo j :=
    if cfg.myself.any past.contains then cfg.migratingSlotsTo j else none
  importingSlotsFrom j :=
    if cfg.myself.any past.contains then (reloaded cfg past).importingSlotsFrom j
    else none

theorem slots_tablesAfter_snoc (cfg : Config) (past : List Bytes)
    (name : Bytes) (j : Slot) :
    (tablesAfter cfg (past ++ [name])).slots j =
      ((tablesAfter cfg past).slots j).or
        (if Covers (slotRanges cfg name) j then some name else none) := by
  by_cases h : Covers (slotRanges cfg name) j <;>
    simp [tablesAfter, find?_append, h]

theorem tablesAfter_snoc (hwf : WellFormed cfg names)
    (hn : cfg.node name = some n) (hname : name ∉ past) :
    { (tablesAfter cfg past).withLine cfg name n with node := fun _ => none } =
      tablesAfter cfg (past ++ [name]) := by
  have hflag := hwf.flag name n hn
  cases hme : n.flags.myself with
  | false =>
    have hne : cfg.myself ≠ some name := fun h => by
      simp [hflag.mpr h] at hme
    have hany : cfg.myself.any (past ++ [name]).contains =
        cfg.myself.any past.contains := by
      cases hcfg : cfg.myself with
      | none => rfl
      | some q =>
        have hq : q ≠ name := fun h => hne (h ▸ hcfg)
        simp [hq]
    rw [Config.withLine, hme]
    refine Config.ext rfl ?_ (funext fun j => ?_) (funext fun j => ?_)
      (funext fun j => ?_)
    · simp [tablesAfter, ← hany, Config.claim]
    · exact (slots_tablesAfter_snoc cfg past name j).symm
    · simp [tablesAfter, ← hany, Config.claim]
    · simp [tablesAfter, ← hany, Config.claim, reloaded]
  | true =>
    have hcfg := hflag.mp hme
    rw [Config.withLine, hme]
    refine Config.ext rfl ?_ (funext fun j => ?_) (funext fun j => ?_)
      (funext fun j => ?_)
    · simp [tablesAfter, hcfg, Config.claim, Config.marked]
    · exact (slots_tablesAfter_snoc cfg past name j).symm
    · simp [tablesAfter, hcfg, hname, Config.claim, Config.marked]
    · simp [tablesAfter, hcfg, hname, Config.claim, Config.marked, reloaded]

theorem lf_notMem_line {token : Bytes} {tokens : List Bytes}
    (htokens : ∀ t ∈ token :: tokens, IsToken t) :
    (10 : UInt8) ∉ token ++ tokens.flatMap (charSpace :: ·) := by
  have hbyte : ∀ t ∈ token :: tokens, (10 : UInt8) ∉ t := fun t ht hmem =>
    absurd ((htokens t ht).2 10 hmem) (by decide)
  simp only [mem_append, mem_flatMap, mem_cons, not_or, not_exists, not_and]
  exact ⟨hbyte token mem_cons_self, fun t ht =>
    ⟨by decide, hbyte t (mem_cons_of_mem token ht)⟩⟩

/-- One round of the loop over the lines. -/
theorem loadLines_tokens {token : Bytes} {tokens : List Bytes}
    (htokens : ∀ t ∈ token :: tokens, IsToken t)
    (hlength : (token ++ tokens.flatMap (charSpace :: ·) ++
      [charLf]).length ≤ 2098175) (fuel : ℕ) (rest : Bytes) :
    loadLines (fuel + 1) st
      (token ++ tokens.flatMap (charSpace :: ·) ++ [charLf] ++ rest) =
      loadLine st (token :: tokens) >>= fun st => loadLines fuel st rest := by
  have hsplit := sdssplitargs_tokens htokens
  have hlf := lf_notMem_line htokens
  generalize token ++ tokens.flatMap (charSpace :: ·) = body at *
  rw [length_append] at hlength
  have hread : fgets 2098175 (body ++ [charLf] ++ rest) =
      (body ++ [charLf], rest) := by
    rw [append_assoc]
    exact fgets_line hlf hlength rest
  rw [loadLines, hread]
  simp only [hsplit, append_eq_nil_iff, cons_ne_nil, and_false, if_false]

theorem loadLines_nodeLine (hwf : WellFormed cfg names)
    (hn : cfg.node name = some n) (fuel : ℕ) (rest : Bytes) :
    loadLines (fuel + 1) st (nodeLine cfg links name n ++ rest) =
      loadLine st (name :: lineTokens cfg links name n) >>= fun st =>
        loadLines fuel st rest := by
  have hisName := hwf.isName name ((hwf.node name).mp (by simp [hn]))
  have hslaveof : ∀ master, n.slaveof = some master → IsName master :=
    fun master h => hwf.isName _ (hwf.slaveof name n master hn h)
  have htokens : ∀ t ∈ name :: lineTokens cfg links name n, IsToken t := by
    intro t ht
    rcases mem_cons.mp ht with rfl | ht
    · exact hisName.isToken
    · exact lineTokens_isToken (hwf.ip _ n hn).2 hslaveof
        (fun j q h => hwf.isName _ (hwf.migrating j q h))
        (fun j q h => hwf.isName _ (hwf.importing j q h)) ht
  have hlength : (nodeLine cfg links name n).length ≤ 2098175 :=
    length_nodeLine_le hisName (hwf.ip name n hn).1
  rw [nodeLine_eq hisName hslaveof] at hlength ⊢
  exact loadLines_tokens htokens hlength fuel rest

/-- The lines of the nodes `todo` are read one after the other. -/
theorem loadLines_description (hwf : WellFormed cfg names) {todo : List Bytes}
    (hnames : names = past ++ todo) {fuel : ℕ}
    (hfuel : todo.length < fuel)
    (h : LoadedAfter cfg names past (tablesAfter cfg past) st) :
    Returns ∅ (loadLines fuel st (clusterGenNodesDescription cfg links todo))
      fun st' => LoadedAfter cfg names names (tablesAfter cfg names) st' := by
  induction todo generalizing past st fuel with
  | nil =>
    obtain ⟨fuel, rfl⟩ := Nat.exists_eq_succ_of_ne_zero
      (Nat.ne_zero_of_lt hfuel)
    rw [append_nil] at hnames
    exact .pure (hnames ▸ h)
  | cons name todo ih =>
    obtain ⟨fuel, rfl⟩ := Nat.exists_eq_succ_of_ne_zero
      (Nat.ne_zero_of_lt hfuel)
    have hnodup := hwf.nodup
    rw [hnames, nodup_append] at hnodup
    have hname : name ∉ past := fun hmem =>
      hnodup.2.2 name hmem name mem_cons_self rfl
    have hpast : ∀ q ∈ past, q ∈ names := fun q hq =>
      hnames ▸ mem_append_left _ hq
    have hmem : name ∈ names :=
      hnames ▸ mem_append_right _ mem_cons_self
    obtain ⟨n, hn⟩ := isSome_iff_exists.mp ((hwf.node name).mpr hmem)
    have hmyself : n.flags.myself = true →
        (tablesAfter cfg past).myself = none := fun hme => by
      simp [tablesAfter, (hwf.flag name n hn).mp hme, hname]
    have hline : clusterGenNodesDescription cfg links (name :: todo) =
        nodeLine cfg links name n ++
          clusterGenNodesDescription cfg links todo := by
      simp [clusterGenNodesDescription, hn, hwf.handshake name n hn]
    rw [hline, loadLines_nodeLine hwf hn]
    refine (h.loadLine hwf hname hpast hn hmyself).bind fun st' h' => ?_
    have hnames' : names = (past ++ [name]) ++ todo := by
      simpa using hnames
    refine ih hnames' (Nat.lt_of_succ_lt_succ hfuel)
      ⟨h'.complete, h'.other, ?_⟩
    rw [← tablesAfter_snoc hwf hn hname]
    exact h'.tables

theorem LoadedAfter.eq_reloaded (hwf : WellFormed cfg names)
    (h : LoadedAfter cfg names names (tablesAfter cfg names) st) :
    st = reloaded cfg names := by
  obtain ⟨me, hmem, hmyself⟩ := hwf.myself
  rw [h.tables]
  refine Config.ext (funext fun q => ?_) ?_ rfl (funext fun j => ?_)
    (funext fun j => ?_)
  · by_cases hq : q ∈ names
    · exact h.complete q hq
    have hnone : cfg.node q = none :=
      not_isSome_iff_eq_none.mp (mt (hwf.node q).mp hq)
    have hother := (h.other q hq).resolve_right fun h => hq h.2
    simp [reloaded, hnone, hother]
  all_goals simp [tablesAfter, reloaded, hmyself, hmem]

theorem length_le_length_description (hwf : WellFormed cfg names)
    {todo : List Bytes} (htodo : ∀ name ∈ todo, name ∈ names) :
    todo.length ≤ (clusterGenNodesDescription cfg links todo).length := by
  induction todo with
  | nil => exact Nat.zero_le _
  | cons name todo ih =>
    obtain ⟨n, hn⟩ := isSome_iff_exists.mp
      ((hwf.node name).mpr (htodo name mem_cons_self))
    have hline : 1 ≤ (nodeLine cfg links name n).length := by
      rw [nodeLine, length_append, length_singleton]
      exact Nat.le_add_left 1 _
    have ih := ih fun q hq => htodo q (mem_cons_of_mem name hq)
    simp only [clusterGenNodesDescription, flatMap_cons, hn,
      hwf.handshake name n hn, length_append, length_cons]
    simp only [clusterGenNodesDescription] at ih
    rw [if_neg Bool.false_ne_true]
    omega

/-- The file is always loaded. -/
theorem clusterLoadConfig_description (hwf : WellFormed cfg names) :
    clusterLoadConfig (clusterGenNodesDescription cfg links names) =
      .ok (reloaded cfg names) := by
  have hempty : LoadedAfter cfg names [] (tablesAfter cfg []) emptyConfig :=
    ⟨by simp, fun _ _ => .inl rfl, by
      refine Config.ext rfl ?_ rfl (funext fun j => ?_) (funext fun j => ?_)
      all_goals cases h : cfg.myself <;> simp [tablesAfter, emptyConfig, h]⟩
  have hfuel : names.length <
      (clusterGenNodesDescription cfg links names).length + 1 :=
    Nat.lt_succ_of_le (length_le_length_description hwf fun _ h => h)
  obtain ⟨st, hst, hloaded⟩ := (loadLines_description hwf
    (nil_append names).symm hfuel hempty).exists_ok
  obtain rfl := hloaded.eq_reloaded hwf
  obtain ⟨me, -, hmyself⟩ := hwf.myself
  rw [clusterLoadConfig, hst]
  simp [reloaded, hmyself, redisAssert]
  rfl

end File

/-! ## What comes back -/

section RoundTrip

theorem ownsSlot_val (cfg : Config) (name : Bytes) (j : Slot) :
    ownsSlot cfg name j = true ↔ cfg.slots j = some name := by
  simp [ownsSlot, j.isLt]

/-- A node reads back its own slots, and the last one with the one before
it. -/
theorem covers_slotRanges (cfg : Config) (name : Bytes) (j : Slot) :
    Covers (slotRanges cfg name) j ↔ cfg.slots j = some name ∨
      j = 16383 ∧ cfg.slots 16382 = some name := by
  have hlast : (j : ℕ) = 16382 + 1 ↔ j = 16383 := Fin.val_inj (b := 16383)
  unfold slotRanges
  rw [rangeLoop_covers (k := 16382) j, ownsSlot_val, hlast,
    ← ownsSlot_val cfg name 16382]
  exact and_iff_right j.isLt

/-- The first of two names in a list. -/
theorem find?_or_eq_iff {l : List Bytes} {m q : Bytes} (hne : m ≠ q)
    (hm : m ∈ l) :
    l.find? (fun r => decide (some m = some r ∨ some q = some r)) = some m ↔
      l.idxOf m < l.idxOf q := by
  induction l with
  | nil => simp at hm
  | cons r l ih =>
    by_cases hmr : m = r
    · subst hmr
      simp [hne]
    have hm : m ∈ l := (mem_cons.mp hm).resolve_left hmr
    by_cases hqr : q = r
    · subst hqr
      simp [Ne.symm hne]
    have hrm : r ≠ m := Ne.symm hmr
    have hrq : r ≠ q := Ne.symm hqr
    simpa [find?_cons, idxOf_cons, hmr, hqr, hrm, hrq]
      using ih hm

/-- The configurations that the file keeps: an owner of slot 16382 either has
the last slot too or comes after its owner, no slot is both migrating and
importing, and no address has a colon. -/
structure Restorable (cfg : Config) (names : List Bytes) : Prop where
  lastSlot : ∀ q, cfg.slots 16382 = some q → cfg.slots 16383 ≠ some q →
    ∃ m, cfg.slots 16383 = some m ∧ names.idxOf m < names.idxOf q
  marks : ∀ j, cfg.migratingSlotsTo j = none ∨ cfg.importingSlotsFrom j = none
  address : ∀ name n, cfg.node name = some n → charColon ∉ n.ip

theorem find?_owner (hwf : WellFormed cfg names) (j : Slot) :
    names.find? (fun q => decide (cfg.slots j = some q)) = cfg.slots j := by
  cases hj : cfg.slots j with
  | none => simp
  | some q =>
    cases hfind : names.find? fun r => decide (some q = some r) with
    | none =>
      have hq := find?_eq_none.mp hfind q (hwf.slots j q hj)
      simp at hq
    | some r => simpa [eq_comm] using find?_some hfind

theorem slots_reloaded (cfg : Config) (names : List Bytes) (j : Slot) :
    (reloaded cfg names).slots j = names.find? fun q =>
      decide (cfg.slots j = some q ∨ j = 16383 ∧ cfg.slots 16382 = some q) := by
  simp only [reloaded, covers_slotRanges]

theorem slots_reloaded_last (cfg : Config) (names : List Bytes) :
    (reloaded cfg names).slots 16383 = names.find? fun q =>
      decide (cfg.slots 16383 = some q ∨ cfg.slots 16382 = some q) := by
  simp only [slots_reloaded, true_and]

/-- Only the last slot can be read wrong. -/
theorem slots_reloaded_eq_iff (hwf : WellFormed cfg names) :
    (reloaded cfg names).slots = cfg.slots ↔
      ∀ q, cfg.slots 16382 = some q → cfg.slots 16383 ≠ some q →
        ∃ m, cfg.slots 16383 = some m ∧ names.idxOf m < names.idxOf q := by
  constructor
  · intro h q hq hne
    have hlast := congrFun h 16383
    rw [slots_reloaded_last, hq] at hlast
    cases hm : cfg.slots 16383 with
    | none =>
      rw [hm, find?_eq_none] at hlast
      simpa using hlast q (hwf.slots 16382 q hq)
    | some m =>
      have hmq : m ≠ q := fun heq => hne (heq ▸ hm)
      rw [hm] at hlast
      exact ⟨m, rfl, (find?_or_eq_iff hmq (hwf.slots _ m hm)).mp hlast⟩
  · intro h
    funext j
    by_cases hj : j = 16383
    · subst hj
      rw [slots_reloaded_last]
      cases hq : cfg.slots 16382 with
      | none => simpa using find?_owner hwf 16383
      | some q =>
        by_cases hown : cfg.slots 16383 = some q
        · simpa [hown] using find?_owner hwf 16383
        obtain ⟨m, hm, hlt⟩ := h q hq hown
        have hmq : m ≠ q := fun heq => hown (heq ▸ hm)
        rw [hm]
        exact (find?_or_eq_iff hmq (hwf.slots _ m hm)).mpr hlt
    · simpa [slots_reloaded, hj] using find?_owner hwf j

/-- The file brings back the configuration that was written when it is
restorable, and only then. -/
theorem nodes_conf_round_trip (hwf : WellFormed cfg names) :
    clusterLoadConfig (clusterGenNodesDescription cfg links names) = .ok cfg ↔
      Restorable cfg names := by
  rw [clusterLoadConfig_description hwf, Except.ok.injEq]
  constructor
  · intro h
    refine ⟨(slots_reloaded_eq_iff hwf).mp (congrArg slots h),
      fun j => ?_, fun name n hn => ?_⟩
    · have hj : (reloaded cfg names).importingSlotsFrom j =
          cfg.importingSlotsFrom j := congrFun (congrArg _ h) j
      cases hto : cfg.migratingSlotsTo j with
      | none => exact .inl rfl
      | some target => exact .inr (by simpa [reloaded, hto] using hj.symm)
    have hnode : (reloaded cfg names).node name = cfg.node name :=
      congrFun (congrArg _ h) name
    simp only [reloaded, hn, map_some, some_inj] at hnode
    exact charColon_notMem_of_restored (congrArg Entry.ip hnode)
  · intro h
    refine Config.ext (funext fun name => ?_) rfl
      ((slots_reloaded_eq_iff hwf).mpr h.lastSlot) rfl (funext fun j => ?_)
    · cases hn : cfg.node name with
      | none => simp [reloaded, hn]
      | some n =>
        have hport := hwf.port name n hn
        simp [reloaded, hn,
          restored_eq_self (h.address name n hn) hport.1 hport.2]
    · rcases h.marks j with hto | hfrom
      · simp [reloaded, hto]
      · simp [reloaded, hfrom]

def loneName : Bytes := replicate 40 97

/-- The cluster of the nodes of a table, as `loneName` knows it. -/
def tableConfig (table : List (Bytes × Entry))
    (slots migrating importing : Slot → Option Bytes) : Config :=
  ⟨fun name => table.lookup name, some loneName, slots, migrating, importing⟩

def localMaster (myself : Bool) : Entry :=
  ⟨ascii "127.0.0.1", 7000, { noFlags with myself, master := true }, none, 1⟩

/-- A node alone in its cluster, a master at `127.0.0.1:7000`. -/
def loneConfig (owned : Slot → Prop) [DecidablePred owned] : Config :=
  tableConfig [(loneName, localMaster true)]
    (fun j => if owned j then some loneName else none) (fun _ => none)
    fun _ => none

def noLinks : Links := ⟨fun _ => 0, fun _ => 0, fun _ => false⟩

theorem tableConfig_wellFormed {table : List (Bytes × Entry)}
    {slots migrating importing : Slot → Option Bytes} {names : List Bytes}
    (hnames : table.map Prod.fst = names) (hnodup : names.Nodup)
    (hself : loneName ∈ names)
    (hall : ∀ p ∈ table, p.1.length = 40 ∧ (∀ b ∈ p.1, isHexDigit b = true) ∧
      p.2.flags.handshake = false ∧
      (p.2.flags.myself = true ↔ some loneName = some p.1) ∧
      (p.2.ip.length < 46 ∧ ∀ b ∈ p.2.ip, isTokenByte b = true) ∧
      (-2 ^ 31 ≤ p.2.port ∧ p.2.port < 2 ^ 31) ∧ p.2.configEpoch < 2 ^ 64 ∧
      ∀ m ∈ p.2.slaveof, m ∈ names)
    (hmem : ∀ owner ∈ [slots, migrating, importing], ∀ j, ∀ q ∈ owner j,
      q ∈ names) :
    WellFormed (tableConfig table slots migrating importing) names := by
  have hentry : ∀ {name n}, table.lookup name = some n → (name, n) ∈ table := by
    intro name n h
    obtain ⟨l, r, rfl, _⟩ := lookup_eq_some_iff.mp h
    exact mem_append_right l mem_cons_self
  subst hnames
  simp only [forall_mem_cons] at hmem
  exact {
    nodup := hnodup
    node := fun name => lookup_isSome_iff.trans (by simp)
    isName := forall_mem_map.mpr fun p hp => ⟨(hall p hp).1, (hall p hp).2.1⟩
    handshake := fun _ _ h => (hall _ (hentry h)).2.2.1
    myself := ⟨loneName, hself, rfl⟩
    flag := fun _ _ h => (hall _ (hentry h)).2.2.2.1
    ip := fun _ _ h => (hall _ (hentry h)).2.2.2.2.1
    port := fun _ _ h => (hall _ (hentry h)).2.2.2.2.2.1
    configEpoch := fun _ _ h => (hall _ (hentry h)).2.2.2.2.2.2.1
    slaveof := fun _ _ m h => (hall _ (hentry h)).2.2.2.2.2.2.2 m
    slots := hmem.1
    migrating := hmem.2.1
    importing := hmem.2.2.1 }

theorem loneConfig_wellFormed (owned : Slot → Prop) [DecidablePred owned] :
    WellFormed (loneConfig owned) [loneName] :=
  tableConfig_wellFormed rfl (by decide) (by decide) (by decide +kernel)
    (by simp)

def otherName : Bytes := replicate 40 98

/-- Two masters that share the slots, one of which is on its way in each
direction, and a replica of the second. -/
def pairConfig : Config :=
  tableConfig [(loneName, localMaster true), (otherName, localMaster false),
      (replicate 40 99, ⟨ascii "127.0.0.1", 7001,
        { noFlags with slave := true }, some otherName, 0⟩)]
    (fun j => if j.val < 8192 then some loneName else some otherName)
    (fun j => if j.val = 7 then some otherName else none)
    fun j => if j.val = 9000 then some otherName else none

theorem nodes_conf_round_trip_replica :
    WellFormed pairConfig [loneName, otherName, replicate 40 99] ∧
      clusterLoadConfig (clusterGenNodesDescription pairConfig noLinks
        [loneName, otherName, replicate 40 99]) = .ok pairConfig := by
  have hwf : WellFormed pairConfig [loneName, otherName, replicate 40 99] :=
    tableConfig_wellFormed rfl (by decide) (by decide) (by decide +kernel)
      (by grind)
  refine ⟨hwf, (nodes_conf_round_trip hwf).mpr ⟨?_, fun j => ?_, ?_⟩⟩
  · simp [pairConfig, tableConfig]
  · by_cases hj : j.val = 7 <;> simp [pairConfig, tableConfig, hj]
  · have hip : charColon ∉ ascii "127.0.0.1" := by decide +kernel
    intro name n h
    simp only [pairConfig, tableConfig, lookup_cons, lookup_nil] at h
    grind [localMaster]

/-- The node that has slot 16382 alone has the last slot too after a
restart. -/
theorem slot_16383_gained_by_restart :
    WellFormed (loneConfig fun j => j = 16382) [loneName] ∧
      (loneConfig fun j => j = 16382).slots 16383 = none ∧
      ∃ cfg', clusterLoadConfig (clusterGenNodesDescription
        (loneConfig fun j => j = 16382) noLinks [loneName]) = .ok cfg' ∧
        cfg'.slots 16383 = some loneName := by
  refine ⟨loneConfig_wellFormed _, by simp [loneConfig, tableConfig], _,
    clusterLoadConfig_description (loneConfig_wellFormed _), ?_⟩
  rw [slots_reloaded_last]
  simp [loneConfig, tableConfig]

end RoundTrip

end RedisV8.Cluster.NodesConf
