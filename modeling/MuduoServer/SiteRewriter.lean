import MuduoServer.DomainRewriter
import MuduoServer.FileTree

/-!
# The whole site

`walk_directory` goes through the files below a directory in whatever order the iterator yields
them, and the backups it makes may turn up among them. Calls of the file system may fail, throw or
do half of what they should, and a file may have several names. A text file that no other entry
leads to comes out as if it were alone, so the order of the walk does not matter.
-/
namespace MuduoServer

open StdString Rewrite FileTree FileTree.Tree

namespace DomainRewriter

/-! ## The program -/

/-- The file system below the directory and around it. Nobody but the program changes it. -/
abbrev Disk := Tree Bytes Bytes

/-- How `copy_file` ends: it throws without a copy, or with the first bytes of one. -/
inductive CopyResult where
  | done
  | failed (left : Option Nat)

/-- What the system answers while a file is processed. -/
structure Answers where
  /-- `exists` throws. -/
  existsThrows : Bool
  copy : CopyResult
  openRead : Bool
  /-- Reading the text throws. -/
  readThrows : Bool
  openWrite : Bool
  /-- So many bytes of the new text reach the file. -/
  written : Nat

def backupPath (filepath : Bytes) : Bytes := filepath ++ ascii ".bak"

/-- The backup `process_file` makes, unless something has its name, and whether the file is
processed further; `none` is an exception. -/
def backUp (disk : Disk) (filepath : Bytes) (answers : Answers) : Disk × Option Bool :=
  if answers.existsThrows then (disk, none)
  else if disk.taken (backupPath filepath) then (disk, some true)
  else
    match disk.text filepath, answers.copy with
    | some content, .done => (disk.create (backupPath filepath) content, some true)
    | some content, .failed (some left) =>
      (disk.create (backupPath filepath) (content.take left), some false)
    | some _, .failed none | none, _ => (disk, some false)

/-- The result is `none` when an exception leaves the function. -/
def processFile (disk : Disk) (filepath : Bytes) (replacements : List (Rule UInt8)) (backup : Bool)
    (answers : Answers) : Disk × Option Bool :=
  match if backup then backUp disk filepath answers else (disk, some true) with
  | (disk, some true) =>
    match if answers.openRead then disk.text filepath else none with
    | none => (disk, some false)
    | some content =>
      if answers.readThrows then (disk, none)
      else
        match replaceContent replacements content with
        | .error _ => (disk, none)
        | .ok newContent =>
          if newContent = content then (disk, some true)
          else if answers.openWrite then
            (disk.write filepath (newContent.take answers.written), some true)
          else (disk, some false)
  | (disk, done) => (disk, done)

def textExtensions : List String :=
  [".html", ".htm", ".xhtml", ".php", ".asp", ".jsp", ".css", ".js", ".mjs", ".json", ".xml",
    ".xsl", ".txt", ".md", ".svg", ".csv", ".rss", ".atom"]

/-- `path::filename` -/
def fileName (path : Bytes) : Bytes := (path.reverse.takeWhile (· ≠ 47)).reverse

/-- `path::extension`: the file name from its last dot on, unless that begins the name. -/
def extension (path : Bytes) : Bytes :=
  let name := fileName path
  let rest := name.reverse.takeWhile (· ≠ 46)
  if name = ascii "." ∨ name = ascii ".." ∨ name.length ≤ rest.length + 1 then []
  else 46 :: rest.reverse

def isTextFile (path : Bytes) : Bool :=
  (textExtensions.map ascii).contains ((extension path).map toLower)

/-- What `walk_directory` counts. -/
structure Tally where
  processed : Nat
  failed : Nat
  skipped : Nat

/-- What the iterator yields. -/
structure DirEntry where
  path : Bytes
  /-- The step of the iterator to this entry, `status` or `relative` throws. -/
  throws : Bool
  answers : Answers

/-- The body of the loop. -/
def visit (replacements : List (Rule UInt8)) (backup : Bool) (disk : Disk) (tally : Tally)
    (entry : DirEntry) : Disk × Option Tally :=
  if entry.throws then (disk, none)
  else if (disk.node entry.path).isNone then (disk, some tally)
  else if !isTextFile entry.path then (disk, some { tally with skipped := tally.skipped + 1 })
  else
    match processFile disk entry.path replacements backup entry.answers with
    | (disk, some true) => (disk, some { tally with processed := tally.processed + 1 })
    | (disk, some false) => (disk, some { tally with failed := tally.failed + 1 })
    | (disk, none) => (disk, none)

/-- The loop; an exception ends the program. -/
def walkLoop (replacements : List (Rule UInt8)) (backup : Bool) :
    Disk → Tally → List DirEntry → Disk × Option Tally
  | disk, tally, [] => (disk, some tally)
  | disk, tally, entry :: entries =>
    match visit replacements backup disk tally entry with
    | (disk, some tally) => walkLoop replacements backup disk tally entries
    | (disk, none) => (disk, none)

def walkDirectory (disk : Disk) (entries : List DirEntry) (replacements : List (Rule UInt8))
    (backup : Bool) : Disk × Option Tally :=
  walkLoop replacements backup disk ⟨0, 0, 0⟩ entries

/-! ## Backups are no text files -/

theorem fileName_append {path suffix : Bytes} (h : 47 ∉ suffix) :
    fileName (path ++ suffix) = fileName path ++ suffix := by
  have hall : ∀ c ∈ suffix.reverse, decide (c ≠ 47) := by
    intro c hc
    exact decide_eq_true fun he => h (he ▸ List.mem_reverse.mp hc)
  rw [fileName, List.reverse_append, List.takeWhile_append_of_pos hall, List.reverse_append,
    List.reverse_reverse]
  rfl

theorem extension_backupPath (path : Bytes) :
    extension (backupPath path) = [] ∨ extension (backupPath path) = ascii ".bak" := by
  have hname : fileName (backupPath path) = fileName path ++ ascii ".bak" :=
    fileName_append (by decide)
  have hrest : (fileName path ++ ascii ".bak").reverse.takeWhile (fun c => decide (c ≠ 46)) =
      ascii "kab" := by
    rw [List.reverse_append]
    rfl
  unfold extension
  dsimp only
  rw [hname, hrest]
  split
  · exact .inl rfl
  · exact .inr rfl

theorem isTextFile_backupPath (path : Bytes) : isTextFile (backupPath path) = false := by
  unfold isTextFile
  obtain he | he := extension_backupPath path
  · rw [he]
    decide
  · rw [he]
    decide

theorem backupPath_injective {p q : Bytes} (h : backupPath p = backupPath q) : p = q :=
  List.append_cancel_right h

/-! ## What a step does to the disk -/

variable {rules : List (Rule UInt8)} {backup : Bool} {disk disk' disk₁ : Disk} {tally : Tally}
  {path other : Bytes} {answers : Answers} {entry : DirEntry} {entries : List DirEntry}

/-- The copy stops half-way. -/
def Answers.tears (answers : Answers) : Bool :=
  match answers.copy with
  | .failed (some _) => true
  | .done | .failed none => false

/-- What making a backup does. -/
inductive Backs (backup : Bool) (path : Bytes) (answers : Answers) (disk : Disk) : Disk → Prop where
  | same : Backs backup path answers disk disk
  | copied {content : Bytes} (hbackup : backup = true)
    (hfree : disk.taken (backupPath path) = false)
    (htext : disk.text path = some content) :
    Backs backup path answers disk (disk.create (backupPath path) content)
  | torn (content : Bytes) (hbackup : backup = true) (hfree : disk.taken (backupPath path) = false)
    (htears : answers.tears = true) :
    Backs backup path answers disk (disk.create (backupPath path) content)

/-- What processing a file does: it is written only where something has the name of the backup. -/
inductive Processes (backup : Bool) (path : Bytes) (answers : Answers) (disk : Disk) :
    Disk → Prop where
  | back {disk₁ : Disk} (h : Backs backup path answers disk disk₁) :
    Processes backup path answers disk disk₁
  | write {disk₁ : Disk} (content : Bytes) (h : Backs backup path answers disk disk₁)
    (hback : backup = true → disk₁.taken (backupPath path) = true) :
    Processes backup path answers disk (disk₁.write path content)

theorem backs_backUp (path : Bytes) (answers : Answers) (disk : Disk) :
    Backs true path answers disk (backUp disk path answers).1 ∧
      ((backUp disk path answers).2 = some true →
        (backUp disk path answers).1.taken (backupPath path) = true) := by
  unfold backUp
  split
  · exact ⟨.same, nofun⟩
  · split
    · rename_i htaken
      exact ⟨.same, fun _ => htaken⟩
    · rename_i hfree
      have hfree := Bool.eq_false_of_not_eq_true hfree
      split
      · rename_i content htext hcopy
        exact ⟨.copied rfl hfree htext, fun _ => taken_of_node (node_create rfl)⟩
      · rename_i content left htext hcopy
        exact ⟨.torn _ rfl hfree (by rw [Answers.tears, hcopy]), nofun⟩
      · exact ⟨.same, nofun⟩
      · exact ⟨.same, nofun⟩

theorem processes_processFile (rules : List (Rule UInt8)) (backup : Bool) (path : Bytes)
    (answers : Answers) (disk : Disk) :
    Processes backup path answers disk (processFile disk path rules backup answers).1 := by
  obtain ⟨disk₁, go, hgo, hbacks, htaken⟩ : ∃ disk₁ go,
      (if backup then backUp disk path answers else (disk, some true)) = (disk₁, go) ∧
      Backs backup path answers disk disk₁ ∧
      (go = some true → backup = true → disk₁.taken (backupPath path) = true) := by
    cases backup with
    | false => exact ⟨disk, some true, rfl, .same, nofun⟩
    | true =>
      obtain ⟨hbacks, htaken⟩ := backs_backUp path answers disk
      exact ⟨_, _, rfl, hbacks, fun hgo _ => htaken hgo⟩
  unfold processFile
  rw [hgo]
  split
  · rename_i disk₂ hpair
    cases hpair
    split
    · exact .back hbacks
    · split
      · exact .back hbacks
      · split
        · exact .back hbacks
        · split
          · exact .back hbacks
          · split
            · exact .write _ hbacks (htaken rfl)
            · exact .back hbacks
  · rename_i disk₂ done hdone hpair
    cases hpair
    exact .back hbacks

theorem Backs.grows (h : Backs backup path answers disk disk') : disk.Grows disk' := by
  cases h with
  | same => exact .refl disk
  | copied hbackup hfree htext => exact grows_create hfree _
  | torn content hbackup hfree htears => exact grows_create hfree _

theorem Processes.grows (h : Processes backup path answers disk disk') : disk.Grows disk' := by
  cases h with
  | back hbacks => exact hbacks.grows
  | write content hbacks hback => exact hbacks.grows.trans (grows_write _ _ _)

/-- An entry is passed over, or its text file is processed. -/
theorem visit_cases (rules : List (Rule UInt8)) (backup : Bool) (disk : Disk) (tally : Tally)
    (entry : DirEntry) : (visit rules backup disk tally entry).1 = disk ∨
      isTextFile entry.path = true ∧ (disk.node entry.path).isSome = true ∧
        Processes backup entry.path entry.answers disk (visit rules backup disk tally entry).1 := by
  unfold visit
  split
  · exact .inl rfl
  · split
    · exact .inl rfl
    · rename_i hnode
      split
      · exact .inl rfl
      · rename_i htext
        have hprocesses := processes_processFile rules backup entry.path entry.answers disk
        refine .inr ⟨by simpa using htext, Option.isSome_iff_ne_none.mpr (by simpa using hnode), ?_⟩
        split
        · rename_i hpair
          rwa [hpair] at hprocesses
        · rename_i hpair
          rwa [hpair] at hprocesses
        · rename_i hpair
          rwa [hpair] at hprocesses

theorem visit_grows (rules : List (Rule UInt8)) (backup : Bool) (disk : Disk) (tally : Tally)
    (entry : DirEntry) : disk.Grows (visit rules backup disk tally entry).1 := by
  obtain hsame | ⟨-, -, hprocesses⟩ := visit_cases rules backup disk tally entry
  · rw [hsame]
    exact .refl disk
  · exact hprocesses.grows

/-- What the visits of a walk keep, the walk keeps. -/
theorem walkLoop_keeps (I : Disk → Prop) (hvisit : ∀ entry ∈ entries, ∀ disk tally, I disk →
    I (visit rules backup disk tally entry).1) (h : I disk) :
    I (walkLoop rules backup disk tally entries).1 := by
  induction entries generalizing disk tally with
  | nil => exact h
  | cons entry entries ih =>
    have hfirst := hvisit entry List.mem_cons_self disk tally h
    unfold walkLoop
    split
    · rename_i hpair
      rw [hpair] at hfirst
      exact ih (fun e he => hvisit e (List.mem_cons_of_mem _ he)) hfirst
    · rename_i hpair
      rwa [hpair] at hfirst

/-! ## One file -/

/-- A text file and what has the name of its backup. -/
structure Page where
  text : Bytes
  taken : Bool
  backup : Option Bytes
  deriving DecidableEq

/-- The page at a path. -/
def look (disk : Disk) (path : Bytes) : Option Page :=
  (disk.text path).map fun text =>
    ⟨text, disk.taken (backupPath path), disk.text (backupPath path)⟩

namespace Page

def backUp (page : Page) (answers : Answers) : Page × Option Bool :=
  if answers.existsThrows then (page, none)
  else if page.taken then (page, some true)
  else
    match answers.copy with
    | .done => ({ page with taken := true, backup := some page.text }, some true)
    | .failed (some left) =>
      ({ page with taken := true, backup := some (page.text.take left) }, some false)
    | .failed none => (page, some false)

/-- What becomes of a page that is processed, and how that ends. -/
def process (page : Page) (rules : List (Rule UInt8)) (backup : Bool) (answers : Answers) :
    Page × Option Bool :=
  match if backup then page.backUp answers else (page, some true) with
  | (page, some true) =>
    if !answers.openRead then (page, some false)
    else if answers.readThrows then (page, none)
    else if chain rules page.text = page.text then (page, some true)
    else if answers.openWrite then
      ({ page with text := (chain rules page.text).take answers.written }, some true)
    else (page, some false)
  | (page, done) => (page, done)

end Page

section

variable {page : Page} {n : Nat}

theorem look_eq_some : look disk path = some page ↔ disk.text path = some page.text ∧
    disk.taken (backupPath path) = page.taken ∧ disk.text (backupPath path) = page.backup := by
  rw [look, Option.map_eq_some_iff]
  constructor
  · rintro ⟨text, htext, rfl⟩
    exact ⟨htext, rfl, rfl⟩
  · rintro ⟨htext, htaken, hbackup⟩
    exact ⟨page.text, htext, by rw [htaken, hbackup]⟩

theorem node_of_look (h : look disk path = some page) :
    ∃ n, disk.node path = some n ∧ disk.texts[n]? = some page.text :=
  node_of_text (look_eq_some.mp h).1

theorem look_of_node (h : disk.node path = some n) : ∃ page, look disk path = some page := by
  rw [look, text_of_node h, List.getElem?_eq_getElem (node_lt h)]
  exact ⟨_, rfl⟩

/-- What is made where nothing is, is made at another place than a file's. -/
theorem follow_ne (hnode : disk.node path = some n) (hfree : disk.taken other = false) :
    disk.follow path ≠ disk.follow other := by
  intro he
  rw [taken, ← he, ← taken, taken_of_node hnode] at hfree
  cases hfree

theorem look_create (h : look disk path = some page) (hfree : disk.taken (backupPath path) = false)
    (content : Bytes) : look (disk.create (backupPath path) content) path =
      some { page with taken := true, backup := some content } := by
  obtain ⟨n, hnode, -⟩ := node_of_look h
  rw [look_eq_some]
  exact ⟨(text_create_of_ne (follow_ne hnode hfree)).trans (look_eq_some.mp h).1,
    taken_of_node (node_create rfl),
    text_create⟩

theorem look_write (h : look disk path = some page)
    (hne : disk.node path ≠ disk.node (backupPath path)) (content : Bytes) :
    look (disk.write path content) path = some { page with text := content } := by
  obtain ⟨n, hnode, -⟩ := node_of_look h
  obtain ⟨-, htaken, hbackup⟩ := look_eq_some.mp h
  rw [look_eq_some]
  exact ⟨text_write hnode, htaken, (text_write_of_ne (.inr hne)).trans hbackup⟩

theorem look_backUp (h : look disk path = some page) (answers : Answers) :
    look (backUp disk path answers).1 path = some (page.backUp answers).1 ∧
      (backUp disk path answers).2 = (page.backUp answers).2 := by
  obtain ⟨htext, htaken, -⟩ := look_eq_some.mp h
  unfold backUp Page.backUp
  rw [htext, htaken]
  split
  · exact ⟨h, rfl⟩
  · split
    · exact ⟨h, rfl⟩
    · rename_i hfree
      have hfree := htaken.trans (Bool.eq_false_of_not_eq_true hfree)
      cases answers.copy with
      | done => exact ⟨look_create h hfree _, rfl⟩
      | failed left =>
        cases left with
        | none => exact ⟨h, rfl⟩
        | some left => exact ⟨look_create h hfree _, rfl⟩

/-- A file that is no other name of its backup keeps its number, and the backup does not get it. -/
theorem grows_apart (hgrows : disk.Grows disk') (hnode : disk.node path = some n)
    (hne : disk.node path ≠ disk.node (backupPath path)) :
    disk'.node path = some n ∧ disk'.node path ≠ disk'.node (backupPath path) := by
  have hkept : ∀ p, disk'.node p = some n ↔ disk.node p = some n :=
    fun p => hgrows.node_iff (node_lt hnode)
  refine ⟨(hkept path).mpr hnode, fun he => hne ?_⟩
  rw [hnode, (hkept (backupPath path)).mp (he ▸ (hkept path).mpr hnode)]

/-- A file that is no other name of its backup is processed as the page it is. -/
theorem look_processFile (hrules : ∀ q ∈ rules, q.old ≠ []) (h : look disk path = some page)
    (hne : disk.node path ≠ disk.node (backupPath path)) (backup : Bool) (answers : Answers) :
    look (processFile disk path rules backup answers).1 path =
        some (page.process rules backup answers).1 ∧
      (processFile disk path rules backup answers).2 = (page.process rules backup answers).2 := by
  obtain ⟨disk₁, page₁, go, hdisk, hpage, hlook, hgrows⟩ : ∃ disk₁ page₁ go,
      (if backup then backUp disk path answers else (disk, some true)) = (disk₁, go) ∧
      (if backup then page.backUp answers else (page, some true)) = (page₁, go) ∧
      look disk₁ path = some page₁ ∧ disk.Grows disk₁ := by
    cases backup with
    | false => exact ⟨disk, page, some true, rfl, rfl, h, .refl disk⟩
    | true =>
      obtain ⟨hlook, hgo⟩ := look_backUp h answers
      exact ⟨_, _, _, rfl, Prod.ext rfl hgo.symm, hlook, (backs_backUp path answers disk).1.grows⟩
  obtain ⟨n, hnode, -⟩ := node_of_look h
  have hne₁ := (grows_apart hgrows hnode hne).2
  unfold processFile Page.process
  rw [hdisk, hpage]
  obtain _ | _ | _ := go
  · exact ⟨hlook, rfl⟩
  · exact ⟨hlook, rfl⟩
  · dsimp only
    rw [(look_eq_some.mp hlook).1]
    cases answers.openRead with
    | false => exact ⟨hlook, rfl⟩
    | true =>
      simp only [Bool.not_true, Bool.false_eq_true, if_true, if_false, replaceContent_eq hrules]
      split
      · exact ⟨hlook, rfl⟩
      · split
        · exact ⟨hlook, rfl⟩
        · split
          · exact ⟨look_write hlook hne₁ _, rfl⟩
          · exact ⟨hlook, rfl⟩

/-! ## The walk -/

/-- The entry of another path leaves alone what a path leads to. -/
def Spares (disk : Disk) (path other : Bytes) : Prop :=
  disk.follow other ≠ disk.follow path ∧ disk.follow (backupPath other) ≠ disk.follow path ∧
    (disk.node other = disk.node path → disk.node other = none)

instance (disk : Disk) (path other : Bytes) : Decidable (Spares disk path other) :=
  inferInstanceAs (Decidable (_ ∧ _))

/-- The path leads to what it led to. -/
def Same (path : Bytes) (disk disk' : Disk) : Prop :=
  disk'.node path = disk.node path ∧ disk'.taken path = disk.taken path ∧
    disk'.text path = disk.text path

theorem Same.refl (path : Bytes) (disk : Disk) : Same path disk disk := ⟨rfl, rfl, rfl⟩

theorem Same.trans (h : Same path disk disk₁) (h' : Same path disk₁ disk') : Same path disk disk' :=
  ⟨h'.1.trans h.1, h'.2.1.trans h.2.1, h'.2.2.trans h.2.2⟩

theorem look_same (h : Same path disk disk') (hback : Same (backupPath path) disk disk') :
    look disk' path = look disk path := by
  rw [look, h.2.2, hback.2.1, hback.2.2]
  rfl

/-- A name that shares no file comes to share none: a new file is in one place. -/
theorem Spares.grows (h : Spares disk path other) (hgrows : disk.Grows disk') :
    Spares disk' path other := by
  obtain ⟨hplace, hback, hfile⟩ := h
  refine ⟨?_, ?_, fun he => ?_⟩
  · rwa [hgrows.follow]
  · rwa [hgrows.follow]
  · by_contra hsome
    obtain ⟨m, hm⟩ := Option.ne_none_iff_exists'.mp hsome
    by_cases hold : m < disk.texts.length
    · have hother := (hgrows.node_iff hold).mp hm
      have hpath := (hgrows.node_iff hold).mp (he ▸ hm)
      rw [hfile (hother.trans hpath.symm)] at hother
      cases hother
    · exact hplace (hgrows.follow_eq (Nat.not_lt.mp hold) hm (he ▸ hm))

theorem Spares.backs (h : Spares disk path other) (hbacks : Backs backup other answers disk disk') :
    Same path disk disk' := by
  have hne := h.2.1.symm
  cases hbacks with
  | same => exact .refl path disk
  | copied hbackup hfree htext =>
    exact ⟨node_create_of_ne hne, taken_create_of_ne hne, text_create_of_ne hne⟩
  | torn content hbackup hfree htears =>
    exact ⟨node_create_of_ne hne, taken_create_of_ne hne, text_create_of_ne hne⟩

theorem Spares.write (h : Spares disk path other) (content : Bytes) :
    Same path disk (disk.write other content) := by
  refine ⟨rfl, rfl, text_write_of_ne ?_⟩
  by_cases he : disk.node other = disk.node path
  · exact .inl (he ▸ h.2.2 he)
  · exact .inr he

theorem Spares.visit (h : isTextFile entry.path = true → Spares disk path entry.path) :
    Same path disk (visit rules backup disk tally entry).1 := by
  obtain hsame | ⟨htext, -, hprocesses⟩ := visit_cases rules backup disk tally entry
  · rw [hsame]
    exact .refl path disk
  · have hspares := h htext
    generalize (DomainRewriter.visit rules backup disk tally entry).1 = disk' at hprocesses
    cases hprocesses with
    | back hbacks => exact hspares.backs hbacks
    | write content hbacks hback =>
      exact (hspares.backs hbacks).trans ((hspares.grows hbacks.grows).write content)

theorem walkLoop_same (rules : List (Rule UInt8)) (backup : Bool) (tally : Tally)
    (h : ∀ entry ∈ entries, isTextFile entry.path = true → Spares disk path entry.path) :
    disk.Grows (walkLoop rules backup disk tally entries).1 ∧
      Same path disk (walkLoop rules backup disk tally entries).1 := by
  refine walkLoop_keeps (fun d => disk.Grows d ∧ Same path disk d) ?_ ⟨.refl disk, .refl path disk⟩
  rintro entry hentry d tally ⟨hgrows, hsame⟩
  exact ⟨hgrows.trans (visit_grows rules backup d tally entry),
    hsame.trans (Spares.visit fun htext => (h entry hentry htext).grows hgrows)⟩

/-- A walk ends with its first exception. -/
theorem walkLoop_append (rules : List (Rule UInt8)) (backup : Bool) (disk : Disk) (tally : Tally)
    (before after : List DirEntry) : walkLoop rules backup disk tally (before ++ after) =
      match walkLoop rules backup disk tally before with
      | (disk, some tally) => walkLoop rules backup disk tally after
      | (disk, none) => (disk, none) := by
  induction before generalizing disk tally with
  | nil => rfl
  | cons entry before ih =>
    rw [List.cons_append, walkLoop, walkLoop]
    split
    · exact ih ..
    · rfl

theorem visit_text (rules : List (Rule UInt8)) (backup : Bool) (tally : Tally)
    (hthrows : entry.throws = false) (hnode : disk.node entry.path = some n)
    (htext : isTextFile entry.path = true) : visit rules backup disk tally entry =
      ((processFile disk entry.path rules backup entry.answers).1,
        (processFile disk entry.path rules backup entry.answers).2.map fun done =>
          if done then { tally with processed := tally.processed + 1 }
          else { tally with failed := tally.failed + 1 }) := by
  rw [visit, hthrows, hnode, htext]
  simp only [Option.isNone_some, Bool.not_true, Bool.false_eq_true, if_false]
  split
  · rename_i hpair
    rw [hpair]
    rfl
  · rename_i hpair
    rw [hpair]
    rfl
  · rename_i hpair
    rw [hpair]
    rfl

theorem walkLoop_look (rules : List (Rule UInt8)) (backup : Bool) (tally : Tally)
    (h : ∀ entry ∈ entries, isTextFile entry.path = true →
      Spares disk path entry.path ∧ Spares disk (backupPath path) entry.path) :
    disk.Grows (walkLoop rules backup disk tally entries).1 ∧
      look (walkLoop rules backup disk tally entries).1 path = look disk path := by
  obtain ⟨hgrows, hfile⟩ := walkLoop_same rules backup tally
    fun entry hentry htext => (h entry hentry htext).1
  obtain ⟨-, hcopy⟩ := walkLoop_same rules backup tally
    fun entry hentry htext => (h entry hentry htext).2
  exact ⟨hgrows, look_same hfile hcopy⟩

/-- Where the other entries lead neither to a file nor to its backup, the walk does to the file what
processing it alone does, unless an exception has ended the program before. -/
theorem walk_alone {before after : List DirEntry} (hrules : ∀ q ∈ rules, q.old ≠ [])
    (hthrows : entry.throws = false) (htext : isTextFile entry.path = true)
    (hnode : disk.node entry.path = some n)
    (hne : disk.node entry.path ≠ disk.node (backupPath entry.path))
    (hspares : ∀ other ∈ before ++ after, isTextFile other.path = true →
      Spares disk entry.path other.path ∧ Spares disk (backupPath entry.path) other.path) :
    look (walkLoop rules backup disk tally (before ++ entry :: after)).1 entry.path =
      if (walkLoop rules backup disk tally before).2.isSome then
        look (processFile disk entry.path rules backup entry.answers).1 entry.path
      else look disk entry.path := by
  obtain ⟨page, hlook⟩ := look_of_node hnode
  have halone := (look_processFile hrules hlook hne backup entry.answers).1
  obtain ⟨hgrows, hbefore⟩ := walkLoop_look rules backup tally
    fun other hother => hspares other (List.mem_append_left after hother)
  rw [walkLoop_append]
  generalize walkLoop rules backup disk tally before = reached at hgrows hbefore
  obtain ⟨disk₁, _ | tally₁⟩ := reached
  · exact hbefore
  · obtain ⟨hnode₁, hne₁⟩ := grows_apart hgrows hnode hne
    have hhere := (look_processFile hrules (hbefore.trans hlook) hne₁ backup entry.answers).1
    rw [← congrArg Prod.fst (visit_text rules backup tally₁ hthrows hnode₁ htext)] at hhere
    have hgrows₁ := hgrows.trans (visit_grows rules backup disk₁ tally₁ entry)
    dsimp only [Option.isSome_some]
    rw [if_pos rfl, halone, walkLoop]
    split
    · rename_i disk₂ tally₂ hpair
      rw [hpair] at hhere hgrows₁
      obtain ⟨-, hafter⟩ := walkLoop_look rules backup tally₂
        fun other hother hotherText =>
          (hspares other (List.mem_append_right before hother) hotherText).imp
            (·.grows hgrows₁) (·.grows hgrows₁)
      exact hafter.trans hhere
    · rename_i disk₂ hpair
      rwa [hpair] at hhere

end

theorem rules_ne_nil (newDomain : Bytes) : ∀ q ∈ replacements newDomain, q.old ≠ [] :=
  fun _ hq => (replacements_apart newDomain).old_ne_nil hq

/-- The walk does to each file that no other entry leads to what processing it alone does, wherever
in the walk it comes, and leaves alone what no entry leads to. -/
theorem walk_settles (newDomain : Bytes) (backup : Bool) (disk : Disk) (entries : List DirEntry) :
    (∀ before entry after, entries = before ++ entry :: after → entry.throws = false →
      isTextFile entry.path = true → (disk.node entry.path).isSome = true →
      disk.node entry.path ≠ disk.node (backupPath entry.path) →
      (∀ other ∈ before ++ after, isTextFile other.path = true →
        Spares disk entry.path other.path ∧ Spares disk (backupPath entry.path) other.path) →
      look (walkDirectory disk entries (replacements newDomain) backup).1 entry.path =
        if (walkDirectory disk before (replacements newDomain) backup).2.isSome then
          look (processFile disk entry.path (replacements newDomain) backup entry.answers).1
            entry.path
        else look disk entry.path) ∧
    ∀ path, (∀ entry ∈ entries, isTextFile entry.path = true → Spares disk path entry.path) →
      Same path disk (walkDirectory disk entries (replacements newDomain) backup).1 := by
  refine ⟨?_, fun path hspares => (walkLoop_same _ _ _ hspares).2⟩
  rintro before entry after rfl hthrows htext hfile hne hspares
  obtain ⟨n, hnode⟩ := Option.isSome_iff_exists.mp hfile
  exact walk_alone (rules_ne_nil newDomain) hthrows htext hnode hne hspares

/-! ## Two pages -/

/-- Nothing fails. -/
def fine : Answers := ⟨false, .done, true, false, true, 1000⟩

/-- Two pages and a picture. -/
def siteEntry (path : Bytes) : Option Entry :=
  if path = ascii "/a.html" then some (.file 0)
  else if path = ascii "/b.html" then some (.file 1)
  else if path = ascii "/c.png" then some (.file 2)
  else none

theorem siteEntry_lt (path : Bytes) (n : Nat) (h : siteEntry path = some (.file n)) : n < 3 := by
  unfold siteEntry at h
  split at h
  · cases h
    decide
  · split at h
    · cases h
      decide
    · split at h
      · cases h
        decide
      · cases h

def site : Disk := ⟨id, siteEntry, [ascii "http://ymgal.games/x", ascii "http://ymgal.games/y", []],
  siteEntry_lt⟩

/-- The first page cannot be written, and the backup of the second turns up in the walk. -/
theorem walk_settles_site :
    look (walkDirectory site [⟨ascii "/a.html", false, { fine with openWrite := false }⟩,
        ⟨ascii "/b.html", false, fine⟩, ⟨ascii "/b.html.bak", false, fine⟩]
      (replacements []) true).1
      (ascii "/b.html") = some ⟨ascii "/y", true, some (ascii "http://ymgal.games/y")⟩ ∧
    Same (ascii "/c.png") site (walkDirectory site [⟨ascii "/a.html", false, fine⟩,
      ⟨ascii "/b.html", false, fine⟩] (replacements []) true).1 := by
  have hvisited :=
    (walk_settles [] true site [⟨ascii "/a.html", false, { fine with openWrite := false }⟩,
    ⟨ascii "/b.html", false, fine⟩, ⟨ascii "/b.html.bak", false, fine⟩]).1 [_] _ [_] rfl rfl
      (by decide) (by decide) (by decide) (by decide)
  refine ⟨hvisited.trans (by decide), (walk_settles [] true site _).2 _ (by decide)⟩

/-! ## The order of the walk -/

/-- The entries of text files. -/
def textEntries (entries : List DirEntry) : List DirEntry := entries.filter (isTextFile ·.path)

/-- Neither entry leads to the file or the backup of the other. -/
def Independent (disk : Disk) (entry other : DirEntry) : Prop :=
  (Spares disk entry.path other.path ∧ Spares disk (backupPath entry.path) other.path) ∧
    Spares disk other.path entry.path ∧ Spares disk (backupPath other.path) entry.path

instance (disk : Disk) (entry other : DirEntry) : Decidable (Independent disk entry other) :=
  inferInstanceAs (Decidable (_ ∧ _))

/-- Each text entry is a file and no other name of its backup, and no two lead to the same. -/
structure Separate (disk : Disk) (entries : List DirEntry) : Prop where
  files : ∀ entry ∈ textEntries entries, (disk.node entry.path).isSome = true ∧
    disk.node entry.path ≠ disk.node (backupPath entry.path)
  independent : (textEntries entries).Pairwise (Independent disk)

/-- How the entry of a text file ends. -/
def outcome (rules : List (Rule UInt8)) (backup : Bool) (disk : Disk) (entry : DirEntry) :
    Option Bool :=
  (look disk entry.path).bind fun page => (page.process rules backup entry.answers).2

section

variable {tally' : Tally}

theorem walkLoop_grows (rules : List (Rule UInt8)) (backup : Bool) (disk : Disk) (tally : Tally)
    (entries : List DirEntry) : disk.Grows (walkLoop rules backup disk tally entries).1 :=
  walkLoop_keeps disk.Grows
    (fun entry _ disk₁ tally hgrows => hgrows.trans (visit_grows rules backup disk₁ tally entry))
    (.refl disk)

theorem Independent.symm {other : DirEntry} (h : Independent disk entry other) :
    Independent disk other entry := ⟨h.2, h.1⟩

theorem Independent.grows {other : DirEntry} (h : Independent disk entry other)
    (hgrows : disk.Grows disk') : Independent disk' entry other :=
  ⟨⟨h.1.1.grows hgrows, h.1.2.grows hgrows⟩, h.2.1.grows hgrows, h.2.2.grows hgrows⟩

theorem Separate.grows (h : Separate disk entries) (hgrows : disk.Grows disk') :
    Separate disk' entries where
  files entry hentry := by
    obtain ⟨hfile, hne⟩ := h.files entry hentry
    obtain ⟨n, hnode⟩ := Option.isSome_iff_exists.mp hfile
    obtain ⟨hnode', hne'⟩ := grows_apart hgrows hnode hne
    exact ⟨Option.isSome_iff_exists.mpr ⟨n, hnode'⟩, hne'⟩
  independent := h.independent.imp fun hpair => hpair.grows hgrows

theorem Separate.perm {entries' : List DirEntry} (h : Separate disk entries)
    (hperm : (textEntries entries).Perm (textEntries entries')) : Separate disk entries' where
  files entry hentry := h.files entry (hperm.mem_iff.mpr hentry)
  independent := (hperm.pairwise_iff Independent.symm).mp h.independent

theorem Separate.tail (h : Separate disk (entry :: entries)) : Separate disk entries := by
  have hsub : (textEntries entries).Sublist (textEntries (entry :: entries)) :=
    (List.sublist_cons_self entry entries).filter _
  exact ⟨fun other hother => h.files other (hsub.subset hother), h.independent.sublist hsub⟩

theorem textEntries_cons (htext : isTextFile entry.path = true) :
    textEntries (entry :: entries) = entry :: textEntries entries := List.filter_cons_of_pos htext

/-- The other entries leave a text file and its backup alone. -/
theorem Separate.spares {before after : List DirEntry}
    (h : Separate disk (before ++ entry :: after)) (htext : isTextFile entry.path = true) :
    ∀ other ∈ before ++ after, isTextFile other.path = true →
      Spares disk entry.path other.path ∧ Spares disk (backupPath entry.path) other.path := by
  have hpairs := h.independent
  rw [textEntries, List.filter_append, ← textEntries, ← textEntries, textEntries_cons htext,
    List.pairwise_append, List.pairwise_cons] at hpairs
  obtain ⟨-, ⟨hafter, -⟩, hbefore⟩ := hpairs
  intro other hother hotherText
  obtain hother | hother := List.mem_append.mp hother
  · exact (hbefore other (List.mem_filter.mpr ⟨hother, hotherText⟩) entry List.mem_cons_self).2
  · exact (hafter other (List.mem_filter.mpr ⟨hother, hotherText⟩)).1

theorem walkLoop_throws
    (h : (walkLoop rules backup disk tally entries).2 = some tally') :
    ∀ entry ∈ entries, entry.throws = false := by
  induction entries generalizing disk tally with
  | nil => nofun
  | cons entry entries ih =>
    rw [walkLoop] at h
    split at h
    · rename_i hvisit
      intro other hother
      obtain rfl | hother := List.mem_cons.mp hother
      · by_contra hthrows
        rw [visit, if_pos (Bool.eq_true_of_not_eq_false hthrows)] at hvisit
        cases hvisit
      · exact ih h other hother
    · cases h

/-- A text file that the walk comes to ends as it does alone. -/
theorem Separate.look (h : Separate disk entries) (hrules : ∀ q ∈ rules, q.old ≠ [])
    (hwalk : (walkLoop rules backup disk tally entries).2 = some tally')
    (hentry : entry ∈ textEntries entries) :
    look (walkLoop rules backup disk tally entries).1 entry.path =
      look (processFile disk entry.path rules backup entry.answers).1 entry.path := by
  obtain ⟨hmem, htext⟩ := List.mem_filter.mp hentry
  obtain ⟨hfile, hne⟩ := h.files entry hentry
  obtain ⟨n, hnode⟩ := Option.isSome_iff_exists.mp hfile
  have hthrows := walkLoop_throws hwalk entry hmem
  obtain ⟨before, after, rfl⟩ := List.append_of_mem hmem
  rw [walk_alone hrules hthrows htext hnode hne (h.spares htext)]
  rw [walkLoop_append] at hwalk
  split at hwalk
  · rename_i hbefore
    rw [hbefore]
    rfl
  · cases hwalk

theorem outcome_same (h : Separate disk (entry :: entries)) (htext : isTextFile entry.path = true)
    {other : DirEntry} (hother : other ∈ textEntries entries) :
    outcome rules backup (visit rules backup disk tally entry).1 other =
      outcome rules backup disk other := by
  have hpairs := h.independent
  rw [textEntries_cons htext, List.pairwise_cons] at hpairs
  obtain ⟨hfile, hcopy⟩ := (hpairs.1 other hother).2
  rw [outcome, look_same (Spares.visit fun _ => hfile) (Spares.visit fun _ => hcopy)]
  rfl

theorem visit_skip (rules : List (Rule UInt8)) (backup : Bool) (disk : Disk) (tally : Tally)
    (hthrows : entry.throws = false) (htext : isTextFile entry.path = false) :
    ∃ skipped, visit rules backup disk tally entry =
      (disk, some { tally with skipped := skipped }) := by
  rw [visit, hthrows, htext, if_neg Bool.false_ne_true]
  split
  · exact ⟨tally.skipped, rfl⟩
  · exact ⟨tally.skipped + 1, rfl⟩

/-- What the tally counts is how the files end alone. -/
theorem walkLoop_tally (hrules : ∀ q ∈ rules, q.old ≠ []) (h : Separate disk entries)
    (hwalk : (walkLoop rules backup disk tally entries).2 = some tally') :
    tally'.processed = tally.processed +
        (textEntries entries).countP (outcome rules backup disk · = some true) ∧
      tally'.failed = tally.failed +
        (textEntries entries).countP (outcome rules backup disk · = some false) := by
  induction entries generalizing disk tally with
  | nil =>
    cases hwalk
    exact ⟨rfl, rfl⟩
  | cons entry entries ih =>
    have hthrows := walkLoop_throws hwalk entry List.mem_cons_self
    cases htext : isTextFile entry.path with
    | false =>
      obtain ⟨skipped, hvisit⟩ := visit_skip rules backup disk tally hthrows htext
      have hrest : textEntries (entry :: entries) = textEntries entries :=
        List.filter_cons_of_neg (by rw [htext]; exact Bool.false_ne_true)
      rw [walkLoop, hvisit] at hwalk
      obtain ⟨hprocessed, hfailed⟩ := ih h.tail hwalk
      rw [hrest]
      exact ⟨hprocessed, hfailed⟩
    | true =>
      have hmem : entry ∈ textEntries (entry :: entries) := by
        rw [textEntries_cons htext]
        exact List.mem_cons_self
      obtain ⟨hfile, hne⟩ := h.files entry hmem
      obtain ⟨n, hnode⟩ := Option.isSome_iff_exists.mp hfile
      obtain ⟨page, hlook⟩ := look_of_node hnode
      have houtcome : outcome rules backup disk entry =
          (processFile disk entry.path rules backup entry.answers).2 := by
        rw [outcome, hlook, (look_processFile hrules hlook hne backup entry.answers).2]
        rfl
      have hvisit := visit_text rules backup tally hthrows hnode htext
      have hgrows := visit_grows rules backup disk tally entry
      have hsame : ∀ done, (textEntries entries).countP (outcome rules backup
          (visit rules backup disk tally entry).1 · = some done) =
          (textEntries entries).countP (outcome rules backup disk · = some done) := by
        intro done
        refine List.countP_congr fun other hother => ?_
        rw [outcome_same h htext hother]
      rw [walkLoop] at hwalk
      rw [textEntries_cons htext, List.countP_cons, List.countP_cons, houtcome]
      generalize (processFile disk entry.path rules backup entry.answers).2 = done at hvisit
      obtain _ | _ | _ := done
      · rw [hvisit] at hwalk
        cases hwalk
      · rw [hvisit] at hwalk hgrows hsame
        obtain ⟨hprocessed, hfailed⟩ := ih (h.tail.grows hgrows) hwalk
        rw [hprocessed, hfailed, hsame, hsame]
        exact ⟨rfl, Nat.add_right_comm tally.failed 1 _⟩
      · rw [hvisit] at hwalk hgrows hsame
        obtain ⟨hprocessed, hfailed⟩ := ih (h.tail.grows hgrows) hwalk
        rw [hprocessed, hfailed, hsame, hsame]
        exact ⟨Nat.add_right_comm tally.processed 1 _, rfl⟩

/-- Another name of a file. -/
theorem text_of_file {page : Page} {n : Nat} (hgrows : disk.Grows disk')
    (hfile : disk.node other = some n) (hnode : disk.node path = some n)
    (hlook : look disk' other = some page) :
    disk'.text path = some page.text ∧ disk'.taken path = true := by
  have hfile' := (hgrows.node_iff (node_lt hnode)).mpr hfile
  have hnode' := (hgrows.node_iff (node_lt hnode)).mpr hnode
  rw [text_of_node hnode', ← text_of_node hfile']
  exact ⟨(look_eq_some.mp hlook).1, taken_of_node hnode'⟩

/-- Another name of the place of a backup. -/
theorem text_of_backup {page : Page} (hgrows : disk.Grows disk')
    (hplace : disk.follow (backupPath other) = disk.follow path)
    (hlook : look disk' other = some page) :
    disk'.text path = page.backup ∧ disk'.taken path = page.taken := by
  rw [← hgrows.follow] at hplace
  obtain ⟨-, htaken, hbackup⟩ := look_eq_some.mp hlook
  rw [← taken_of_follow hplace, ← text_of_follow hplace]
  exact ⟨hbackup, htaken⟩

/-- A path leads to a text file, to where a backup goes, or to nothing that a text entry
leads to. -/
theorem Separate.everywhere (h : Separate disk entries) (path : Bytes) :
    (∃ entry ∈ textEntries entries, ∃ n, disk.node entry.path = some n ∧ disk.node path = some n) ∨
      (∃ entry ∈ textEntries entries, disk.follow (backupPath entry.path) = disk.follow path) ∨
      ∀ entry ∈ textEntries entries, Spares disk path entry.path := by
  by_contra hnot
  push Not at hnot
  obtain ⟨hfile, hbackup, entry, hentry, hspares⟩ := hnot
  obtain ⟨n, hnode⟩ := Option.isSome_iff_exists.mp (h.files entry hentry).1
  refine hspares ⟨fun hplace => ?_, hbackup entry hentry, fun he => ?_⟩
  · exact hfile entry hentry n hnode ((node_of_follow hplace).symm.trans hnode)
  · exact absurd (he.symm.trans hnode) (hfile entry hentry n hnode)


end

/-- The order of the walk does not matter, nor whether it comes to backups and other files: where no
two text entries lead to the same, two walks that go to their end leave the same texts and count the
same. -/
theorem walk_order (newDomain : Bytes) (backup : Bool) (disk disk₁ disk₂ : Disk)
    (tally₁ tally₂ : Tally) (entries entries' : List DirEntry)
    (hperm : (textEntries entries).Perm (textEntries entries')) (hseparate : Separate disk entries)
    (h₁ : walkDirectory disk entries (replacements newDomain) backup = (disk₁, some tally₁))
    (h₂ : walkDirectory disk entries' (replacements newDomain) backup = (disk₂, some tally₂)) :
    (∀ path, disk₁.text path = disk₂.text path ∧ disk₁.taken path = disk₂.taken path) ∧
      tally₁.processed = tally₂.processed ∧ tally₁.failed = tally₂.failed := by
  have hrules := rules_ne_nil newDomain
  have hseparate' := hseparate.perm hperm
  unfold walkDirectory at h₁ h₂
  have hfirst := walkLoop_tally hrules hseparate (congrArg Prod.snd h₁)
  have hsecond := walkLoop_tally hrules hseparate' (congrArg Prod.snd h₂)
  refine ⟨fun path => ?_, ?_, ?_⟩
  · have hgrows₁ := walkLoop_grows (replacements newDomain) backup disk ⟨0, 0, 0⟩ entries
    have hgrows₂ := walkLoop_grows (replacements newDomain) backup disk ⟨0, 0, 0⟩ entries'
    have hlook : ∀ entry ∈ textEntries entries,
        ∃ page, look disk₁ entry.path = some page ∧ look disk₂ entry.path = some page := by
      intro entry hentry
      have hlook₁ := hseparate.look hrules (congrArg Prod.snd h₁) hentry
      have hlook₂ := hseparate'.look hrules (congrArg Prod.snd h₂) (hperm.mem_iff.mp hentry)
      have hfile := ((hseparate.grows hgrows₁).files entry hentry).1
      obtain ⟨n, hnode⟩ := Option.isSome_iff_exists.mp hfile
      rw [h₁] at hlook₁ hnode
      rw [h₂] at hlook₂
      obtain ⟨page, hpage⟩ := look_of_node hnode
      exact ⟨page, hpage, hlook₂.trans (hlook₁.symm.trans hpage)⟩
    have hmem : ∀ entry ∈ entries', isTextFile entry.path = true → entry ∈ textEntries entries :=
      fun entry hentry htext => hperm.mem_iff.mpr (List.mem_filter.mpr ⟨hentry, htext⟩)
    rw [h₁] at hgrows₁
    rw [h₂] at hgrows₂
    obtain ⟨entry, hentry, n, hfile, hnode⟩ | ⟨entry, hentry, hplace⟩ | hnone :=
      hseparate.everywhere path
    · obtain ⟨page, hpage₁, hpage₂⟩ := hlook entry hentry
      obtain ⟨htext₁, htaken₁⟩ := text_of_file hgrows₁ hfile hnode hpage₁
      obtain ⟨htext₂, htaken₂⟩ := text_of_file hgrows₂ hfile hnode hpage₂
      exact ⟨htext₁.trans htext₂.symm, htaken₁.trans htaken₂.symm⟩
    · obtain ⟨page, hpage₁, hpage₂⟩ := hlook entry hentry
      obtain ⟨htext₁, htaken₁⟩ := text_of_backup hgrows₁ hplace hpage₁
      obtain ⟨htext₂, htaken₂⟩ := text_of_backup hgrows₂ hplace hpage₂
      exact ⟨htext₁.trans htext₂.symm, htaken₁.trans htaken₂.symm⟩
    · have hsame₁ := (walkLoop_same (replacements newDomain) backup ⟨0, 0, 0⟩
        fun entry hentry htext => hnone entry (List.mem_filter.mpr ⟨hentry, htext⟩)).2
      have hsame₂ := (walkLoop_same (replacements newDomain) backup ⟨0, 0, 0⟩
        fun entry hentry htext => hnone entry (hmem entry hentry htext)).2
      rw [h₁] at hsame₁
      rw [h₂] at hsame₂
      exact ⟨hsame₁.2.2.trans hsame₂.2.2.symm, hsame₁.2.1.trans hsame₂.2.1.symm⟩
  · rw [hfirst.1, hsecond.1, hperm.countP_eq]
  · rw [hfirst.2, hsecond.2, hperm.countP_eq]

theorem walk_order_site : ∃ disk₁ disk₂ tally₁ tally₂,
    walkDirectory site [⟨ascii "/a.html", false, fine⟩, ⟨ascii "/b.html", false, fine⟩]
      (replacements []) true = (disk₁, some tally₁) ∧
    walkDirectory site [⟨ascii "/b.html", false, fine⟩, ⟨ascii "/b.html.bak", false, fine⟩,
      ⟨ascii "/a.html", false, fine⟩] (replacements []) true = (disk₂, some tally₂) ∧
    (∀ path, disk₁.text path = disk₂.text path ∧ disk₁.taken path = disk₂.taken path) ∧
      tally₁.processed = tally₂.processed ∧ tally₁.failed = tally₂.failed :=
  ⟨_, _, _, _, rfl, rfl, walk_order [] true site _ _ _ _
    [⟨ascii "/a.html", false, fine⟩, ⟨ascii "/b.html", false, fine⟩]
    [⟨ascii "/b.html", false, fine⟩, ⟨ascii "/b.html.bak", false, fine⟩,
      ⟨ascii "/a.html", false, fine⟩] (.swap _ _ _) ⟨by decide, by decide⟩ rfl rfl⟩

end DomainRewriter
end MuduoServer
