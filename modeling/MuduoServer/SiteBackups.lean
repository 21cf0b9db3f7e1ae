import MuduoServer.SiteRewriter
import MuduoServer.Transition

/-!
# Backups of the site

A run with backups copies a file before it writes over it, and no run writes a backup that is there.
So the original text of a file survives any number of runs, as long as no copy of it stops half-way:
the next run takes the beginning of a copy for a backup.
-/
namespace MuduoServer

open StdString Rewrite Transition FileTree FileTree.Tree

namespace DomainRewriter

variable {backup : Bool} {disk disk' : Disk} {path : Bytes} {answers : Answers} {entry : DirEntry}
  {entries : List DirEntry} {rules : List (Rule UInt8)} {tally : Tally}

/-- A run of the program: its arguments behind the directory and what the walk meets. -/
structure Run where
  args : List Bytes
  entries : List DirEntry

def Run.options (r : Run) : Options := parseOptions r.args

def step (disk : Disk) (r : Run) : Option Disk :=
  some (walkDirectory disk r.entries (replacements r.options.newDomain) r.options.backup).1

/-- Where a file is processed, a backup is made or there is one, and no copy stops half-way. -/
def Guarded (n : Nat) (backup : Bool) (disk : Disk) (entry : DirEntry) : Prop :=
  isTextFile entry.path = true → disk.node entry.path = some n →
    (backup = true ∨ disk.taken (backupPath entry.path) = true) ∧ entry.answers.tears = false

instance (n : Nat) (backup : Bool) (disk : Disk) (entry : DirEntry) :
    Decidable (Guarded n backup disk entry) := inferInstanceAs (Decidable (_ → _))

def Careful (n : Nat) (disk : Disk) (r : Run) : Prop :=
  ∀ entry ∈ r.entries, Guarded n r.options.backup disk entry

instance (n : Nat) (disk : Disk) : DecidablePred (Careful n disk) :=
  fun r => inferInstanceAs (Decidable (∀ entry ∈ r.entries, Guarded n r.options.backup disk entry))

/-- Nothing is where the backup of a text name of the file goes, and no text file and no backup of
another file goes there. -/
def Unbacked (n : Nat) (disk : Disk) : Prop :=
  ∀ path, isTextFile path = true → disk.node path = some n →
    disk.taken (backupPath path) = false ∧ ∀ other, isTextFile other = true →
      disk.follow other ≠ disk.follow (backupPath path) ∧
        (disk.follow (backupPath other) = disk.follow (backupPath path) → disk.node other = some n)

/-- The backup of a name of the file has the original text, and no text name leads to it. -/
def Backed (n : Nat) (original : Bytes) (disk : Disk) : Prop :=
  ∃ path, isTextFile path = true ∧ disk.node path = some n ∧
    disk.text (backupPath path) = some original ∧
    ∀ other, isTextFile other = true → disk.node other ≠ disk.node (backupPath path)

/-- The original text is in a backup, or in the file while it has none. -/
def Kept (n : Nat) (original : Bytes) (disk : Disk) : Prop :=
  Backed n original disk ∨ disk.texts[n]? = some original ∧ Unbacked n disk

section

variable {n : Nat} {original content : Bytes}

theorem Guarded.grows (h : Guarded n backup disk entry) (hn : n < disk.texts.length)
    (hgrows : disk.Grows disk') : Guarded n backup disk' entry := by
  intro htext hnode
  obtain ⟨hbackup, htears⟩ := h htext ((hgrows.node_iff hn).mp hnode)
  exact ⟨hbackup.imp_right hgrows.taken, htears⟩

/-- A backup is kept as long as only files that have a text name are written. -/
theorem Backed.grows (h : Backed n original disk) (hgrows : disk.Grows disk')
    (hothers : ∀ m, m < disk.texts.length → (∀ other, isTextFile other = true →
      disk.node other ≠ some m) → disk'.texts[m]? = disk.texts[m]?) : Backed n original disk' := by
  obtain ⟨path, htext, hnode, hback, hapart⟩ := h
  obtain ⟨m, hm, horiginal⟩ := node_of_text hback
  have hlt := node_lt hm
  rw [hm] at hapart
  have hm' := (hgrows.node_iff hlt).mpr hm
  refine ⟨path, htext, (hgrows.node_iff (node_lt hnode)).mpr hnode, ?_, fun other hother => ?_⟩
  · rw [text_of_node hm', hothers m hlt hapart, horiginal]
  · rw [hm', Ne, hgrows.node_iff hlt]
    exact hapart other hother

theorem Backed.backs (h : Backed n original disk) (hbacks : Backs backup path answers disk disk') :
    Backed n original disk' := by
  refine h.grows hbacks.grows fun m hm _ => ?_
  cases hbacks with
  | same => rfl
  | copied hbackup hfree htext => exact texts_create hm
  | torn content hbackup hfree htears => exact texts_create hm

theorem Backed.write (h : Backed n original disk) (htext : isTextFile path = true)
    (content : Bytes) : Backed n original (disk.write path content) :=
  h.grows (grows_write disk path content) fun _ _ hapart => texts_write_of_ne (hapart path htext)

/-- A copy of the file is its backup. -/
theorem Unbacked.copied (h : Unbacked n disk) (htext : isTextFile path = true)
    (hnode : disk.node path = some n) (original : Bytes) :
    Backed n original (disk.create (backupPath path) original) := by
  obtain ⟨hfree, hothers⟩ := h path htext hnode
  have hgrows := grows_create hfree original
  have hback : (disk.create (backupPath path) original).node (backupPath path) =
      some disk.texts.length := node_create rfl
  refine ⟨path, htext, (hgrows.node_iff (node_lt hnode)).mpr hnode, text_create, ?_⟩
  intro other hother he
  exact (hothers other hother).1 (hgrows.follow_eq (Nat.le_refl _) (he.trans hback) hback)

theorem Unbacked.grows (h : Unbacked n disk) (hn : n < disk.texts.length)
    (hgrows : disk.Grows disk') (htaken : ∀ path, isTextFile path = true → disk.node path = some n →
      disk'.taken (backupPath path) = disk.taken (backupPath path)) : Unbacked n disk' := by
  intro path htext hnode
  have hnode := (hgrows.node_iff hn).mp hnode
  obtain ⟨hfree, hothers⟩ := h path htext hnode
  refine ⟨(htaken path htext hnode).trans hfree, fun other hother => ?_⟩
  rw [hgrows.follow, hgrows.node_iff hn]
  exact hothers other hother

/-- Another file gets its backup somewhere else. -/
theorem Unbacked.backs (h : Unbacked n disk) (hn : n < disk.texts.length)
    (htext : isTextFile path = true) (hnode : disk.node path ≠ some n)
    (hbacks : Backs backup path answers disk disk') :
    disk'.texts[n]? = disk.texts[n]? ∧ Unbacked n disk' := by
  have hcreate : ∀ content, disk.taken (backupPath path) = false →
      Unbacked n (disk.create (backupPath path) content) := by
    intro content hfree
    refine h.grows hn (grows_create hfree content) fun other hother hname => ?_
    refine taken_create_of_ne fun he => hnode ?_
    exact ((h other hother hname).2 path htext).2 he.symm
  cases hbacks with
  | same => exact ⟨rfl, h⟩
  | copied hbackup hfree htext => exact ⟨texts_create hn, hcreate _ hfree⟩
  | torn content hbackup hfree htears => exact ⟨texts_create hn, hcreate _ hfree⟩

/-- What is processed has a backup before it is written. -/
theorem kept_processes (h : Kept n original disk) (htext : isTextFile path = true)
    (hguarded : disk.node path = some n →
      (backup = true ∨ disk.taken (backupPath path) = true) ∧ answers.tears = false)
    (hprocesses : Processes backup path answers disk disk') : Kept n original disk' := by
  obtain hbacked | ⟨horiginal, hunbacked⟩ := h
  · cases hprocesses with
    | back hbacks => exact .inl (hbacked.backs hbacks)
    | write content hbacks hback => exact .inl ((hbacked.backs hbacks).write htext content)
  · obtain ⟨hn, -⟩ := List.getElem?_eq_some_iff.mp horiginal
    by_cases hnode : disk.node path = some n
    · obtain ⟨hbackup, htears⟩ := hguarded hnode
      have hfree := (hunbacked path htext hnode).1
      have hmakes := hbackup.resolve_right (Bool.eq_false_iff.mp hfree)
      have hbacks : ∀ disk₁, Backs backup path answers disk disk₁ →
          disk₁ = disk ∨ Backed n original disk₁ := by
        intro disk₁ hbacks
        cases hbacks with
        | same => exact .inl rfl
        | @copied content hbackup hfree hcontent =>
          rw [text_of_node hnode, horiginal] at hcontent
          cases hcontent
          exact .inr (hunbacked.copied htext hnode original)
        | torn content hbackup hfree htorn => exact absurd htorn (Bool.eq_false_iff.mp htears)
      cases hprocesses with
      | back hback =>
        obtain rfl | hbacked := hbacks _ hback
        · exact .inr ⟨horiginal, hunbacked⟩
        · exact .inl hbacked
      | write content hback htaken =>
        obtain rfl | hbacked := hbacks _ hback
        · exact absurd (htaken hmakes) (Bool.eq_false_iff.mp hfree)
        · exact .inl (hbacked.write htext content)
    · cases hprocesses with
      | back hbacks =>
        obtain ⟨htexts, hunbacked⟩ := hunbacked.backs hn htext hnode hbacks
        exact .inr ⟨htexts.trans horiginal, hunbacked⟩
      | @write disk₁ content hbacks hback =>
        obtain ⟨htexts, hunbacked⟩ := hunbacked.backs hn htext hnode hbacks
        have hnode₁ : disk₁.node path ≠ some n := fun he => hnode ((hbacks.grows.node_iff hn).mp he)
        exact .inr ⟨(texts_write_of_ne hnode₁).trans (htexts.trans horiginal), hunbacked⟩

theorem kept_visit (h : Kept n original disk) (hguarded : Guarded n backup disk entry) :
    Kept n original (visit rules backup disk tally entry).1 := by
  obtain hsame | ⟨htext, -, hprocesses⟩ := visit_cases rules backup disk tally entry
  · rwa [hsame]
  · exact kept_processes h htext (hguarded htext) hprocesses

theorem kept_walk (h : Kept n original disk) (hn : n < disk.texts.length)
    (hguarded : ∀ entry ∈ entries, Guarded n backup disk entry) :
    disk.Grows (walkLoop rules backup disk tally entries).1 ∧
      Kept n original (walkLoop rules backup disk tally entries).1 := by
  refine walkLoop_keeps (fun d => disk.Grows d ∧ Kept n original d) ?_ ⟨.refl disk, h⟩
  rintro entry hentry d tally ⟨hgrows, hkept⟩
  exact ⟨hgrows.trans (visit_grows rules backup d tally entry),
    kept_visit hkept ((hguarded entry hentry).grows hn hgrows)⟩

end

/-- Over any number of runs that make backups of a file unless it has one, and whose copies of it do
not stop half-way: a backup has its original text or the file still has it, whatever fails. -/
theorem originals_kept (runs : List Run) (disk disk' : Disk) (path original : Bytes) (n : Nat)
    (hnode : disk.node path = some n) (horiginal : disk.text path = some original)
    (hunbacked : Unbacked n disk) (hruns : Along step (Careful n) disk runs)
    (h : exec step disk runs = some disk') :
    (∃ name, isTextFile name = true ∧ disk'.node name = some n ∧
        disk'.text (backupPath name) = some original) ∨
      disk'.text path = some original := by
  have htexts : disk.texts[n]? = some original := (text_of_node hnode).symm.trans horiginal
  have hkept : disk.Grows disk' ∧ Kept n original disk' := by
    refine exec_invariant (fun d => disk.Grows d ∧ Kept n original d) ?_
      ⟨.refl disk, .inr ⟨htexts, hunbacked⟩⟩ hruns h
    rintro d r d' ⟨hgrows, hkept⟩ hcareful hstep
    cases hstep
    obtain ⟨hgrows', hkept'⟩ :=
      kept_walk hkept (Nat.lt_of_lt_of_le (node_lt hnode) hgrows.length) hcareful
    exact ⟨hgrows.trans hgrows', hkept'⟩
  obtain ⟨hgrows, ⟨name, htext, hname, hback, -⟩ | ⟨htexts', -⟩⟩ := hkept
  · exact .inl ⟨name, htext, hname, hback⟩
  · exact .inr ((text_of_node ((hgrows.node_iff (node_lt hnode)).mpr hnode)).trans htexts')

/-- Two names of one page. -/
def linkedEntry (path : Bytes) : Option Entry :=
  if path = ascii "/a.html" ∨ path = ascii "/b.html" then some (.file 0) else none

theorem linkedEntry_lt (path : Bytes) (n : Nat) (h : linkedEntry path = some (.file n)) :
    n < 1 := by
  unfold linkedEntry at h
  split at h
  · cases h
    exact Nat.one_pos
  · cases h

def linked : Disk := ⟨id, linkedEntry, [ascii "http://ymgal.games/x"], linkedEntry_lt⟩

theorem linked_name {path : Bytes} {n : Nat} (h : linked.node path = some n) :
    path = ascii "/a.html" ∨ path = ascii "/b.html" := by
  have hentry : linkedEntry path = some (.file n) := node_eq_some.mp h
  unfold linkedEntry at hentry
  split at hentry
  · rename_i hname
    exact hname
  · cases hentry

theorem unbacked_linked : Unbacked 0 linked := by
  intro path htext hnode
  have hfree : linked.taken (backupPath path) = false := by
    obtain rfl | rfl := linked_name hnode
    · decide
    · decide
  refine ⟨hfree, fun other hother => ⟨?_, fun he => ?_⟩⟩
  · intro he
    have hname : other = backupPath path := he
    rw [hname, isTextFile_backupPath] at hother
    cases hother
  · have hname : other = path := backupPath_injective he
    rw [hname]
    exact hnode

/-- The page is not copied at first. Then its new text does not fit on the disk, and a
call throws. -/
def linkedRuns : List Run :=
  [⟨[ascii "--backup"], [⟨ascii "/a.html", false, { fine with copy := .failed none }⟩]⟩,
    ⟨[ascii "--backup", ascii "//x"], [⟨ascii "/a.html", false, { fine with written := 2 }⟩,
      ⟨ascii "/b.html", false, { fine with existsThrows := true }⟩]⟩]

theorem originals_kept_linked : ∃ disk', exec step linked linkedRuns = some disk' ∧
    ((∃ name, isTextFile name = true ∧ disk'.node name = some 0 ∧
        disk'.text (backupPath name) = some (ascii "http://ymgal.games/x")) ∨
      disk'.text (ascii "/a.html") = some (ascii "http://ymgal.games/x")) := by
  obtain ⟨disk', h⟩ := Option.isSome_iff_exists.mp
    (show (exec step linked linkedRuns).isSome = true by decide)
  exact ⟨disk', h, originals_kept linkedRuns linked disk' (ascii "/a.html")
    (ascii "http://ymgal.games/x") 0 (by decide) (by decide) unbacked_linked (by decide) h⟩

/-- A copy that stops half-way is taken for a backup by the next run, and the text is lost. -/
example : ∃ disk', exec step linked
    [⟨[ascii "--backup"], [⟨ascii "/a.html", false, { fine with copy := .failed (some 4) }⟩]⟩,
      ⟨[ascii "--backup"], [⟨ascii "/a.html", false, fine⟩]⟩] = some disk' ∧
      disk'.text (ascii "/a.html") = some (ascii "/x") ∧
      disk'.text (ascii "/a.html.bak") = some (ascii "http") :=
  ⟨_, rfl, by decide, by decide⟩

end DomainRewriter
end MuduoServer
