import FeeVault.Solvency
import FeeVault.SharePrice
import FeeVault.NoExtraction
import FeeVault.NonInterference
import FeeVault.Withdrawable
import FeeVault.Envelope
import FeeVault.TakeRate
import FeeVault.AprCap
import FeeVault.RoundingLoss
import FeeVault.Splitting
import FeeVault.FairClaims
import FeeVault.EventLog
import FeeVault.Authority
import FeeVault.FeeModes
import FeeVault.Isolation
import FeeVault.Donations
import FeeVault.BankRun
import FeeVault.Accounting
import FeeVault.Refinement
import FeeVault.Ordering
import FeeVault.Views
import FeeVault.Renewals
import FeeVault.Yield
