import WordMachine.Instruction.Encode
import WordMachine.Listing
import WordMachine.Proofs.Resume
import WordMachine.Proofs.Safety
import WordMachine.Proofs.Sharing
import WordMachine.Word.Sorting
import WordMachine.Proofs.Orbits
import WordMachine.Proofs.BasinCache
import WordMachine.Proofs.BasinHistory
import WordMachine.Proofs.JsonText
import WordMachine.Proofs.DecodeFaults
import WordMachine.Proofs.AcceptedRuns
import WordMachine.Proofs.Accounting
import WordMachine.Proofs.ContentHistory
import WordMachine.Proofs.Lockstep
import WordMachine.Proofs.Exchange
import WordMachine.Proofs.LargerMemory
import WordMachine.Proofs.UnnamedRegisters
import WordMachine.Proofs.LongerPrograms
import WordMachine.Proofs.TripleQueries
import WordMachine.Proofs.QuerySteps
import WordMachine.Proofs.WordBits
import WordMachine.Proofs.Addition
import WordMachine.Proofs.Shifts
import WordMachine.Proofs.Rotations
import WordMachine.Proofs.OrbitQueries
import WordMachine.Proofs.Trajectories
import WordMachine.Proofs.Permutations
import WordMachine.Proofs.Partition
import WordMachine.Proofs.Footprints
import WordMachine.Proofs.Necklaces
import WordMachine.Proofs.RuleOperations
import WordMachine.Proofs.DigestPositions
import WordMachine.Proofs.ListedLines
import WordMachine.Proofs.ListedInstructions
import WordMachine.Proofs.FaithfulListing
import WordMachine.Proofs.CountedRuns
import WordMachine.Proofs.Multiplication
import WordMachine.Proofs.BlockCopy
import WordMachine.Proofs.CarrySave
import WordMachine.Proofs.Snapshots
import WordMachine.Proofs.BitLists
import WordMachine.Proofs.BooleanWords
